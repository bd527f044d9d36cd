import Peios.KernelInputs.Equiv.Snapshot

/-!
# The old snapshot is not lost

`Safe` says that the snapshot there was is still in its place, or a checked one of the commit is, or
it is intact as the backup.  Until the staged snapshot has been checked, all calls are `Quiet`: they
touch neither the destination nor the backup.  After that each rename, and the removal of the
temporary directory, keeps `Safe` wherever it breaks, and so does the whole of an update
(`updateSnapshot_safe`).
-/

namespace KernelInputs

open Python FileTree Interaction Interaction.Prog

variable {sha256 : Sha256} {git : Git} {outcome : Nat → Option Break} {commit : Str}
  {previous : Option Entry} {d : Disk}

/-! ### Conditions -/

/-- A snapshot of the commit that `check_snapshot` accepts. -/
def Verified (sha256 : Sha256) (commit : Str) (e : Option Entry) : Prop :=
  ∃ origin, checkEntry sha256 e false = .ok origin ∧ origin.commit = commit

/-- The snapshot there was is in its place, or a checked one of the commit is, or it is intact as
the backup. -/
def Safe (sha256 : Sha256) (commit : Str) (previous : Option Entry) (d : Disk) : Prop :=
  d.current = previous ∨ Verified sha256 commit d.current ∨
    ∃ tree, previous = some (.directory tree) ∧ d.entry .previous = previous

/-- Nothing has been done to the snapshot there was. -/
structure Untouched (previous : Option Entry) (d : Disk) : Prop where
  current : d.current = previous
  backup : d.entry .previous = none

/-- The staged directory has the `ORIGIN.json` of the commit. -/
structure Staged (commit : Str) (previous : Option Entry) (d : Disk) : Prop where
  untouched : Untouched previous d
  origin : ∃ tree f, ∃ metadata : Metadata, d.entry .staging = some (.directory tree) ∧
    tree.node? [ORIGIN_JSON] = some (.file f) ∧
    (readText f.content).bind Json.loads = some metadata.toJson ∧ metadata.Sound ∧
    metadata.commit = commit

/-- What there was can be replaced: nothing, or a directory. -/
def Replaceable (previous : Option Entry) : Prop :=
  previous = none ∨ ∃ tree, previous = some (.directory tree)

/-- The call touches neither the destination nor the backup. -/
def Quiet : Call → Prop
  | .mkdir p => p = .staging
  | .makeParents p _ => p = .staging
  | .writeBytes p _ _ => p = .staging
  | .chmod p _ _ => p = .staging
  | .replace _ _ => False
  | .rmtree => False
  | _ => True

/-- A triple about the disk alone, wherever calls break. -/
abbrev Runs {α : Type} (sha256 : Sha256) (git : Git) (outcome : Nat → Option Break)
    (inv pre : Disk → Prop) (p : Updater α) (post : α → Disk → Prop)
    (fails : PyError → Disk → Prop) : Prop :=
  Triple (faulty sha256 git outcome) (fun s => inv s.2) (fun s => pre s.2) p.run
    (Triple.Ends (fun a s => post a s.2) fun e s => fails e s.2)

/-- A triple whose runs do not lose the snapshot there was, and do not where they fail. -/
abbrev Keeps {α : Type} (sha256 : Sha256) (git : Git) (outcome : Nat → Option Break) (commit : Str)
    (previous : Option Entry) (pre : Disk → Prop) (p : Updater α) (post : α → Disk → Prop) : Prop :=
  Runs sha256 git outcome (Safe sha256 commit previous) pre p post
    fun _ => Safe sha256 commit previous

theorem Untouched.safe (h : Untouched previous d) : Safe sha256 commit previous d := .inl h.current

/-- Only a directory is accepted. -/
theorem directory_of_checkEntry {e : Option Entry} {allowLegacy : Bool} {origin : Origin}
    (h : checkEntry sha256 e allowLegacy = .ok origin) : ∃ tree, e = some (.directory tree) := by
  unfold checkEntry at h
  split at h
  · exact ⟨_, rfl⟩
  · cases h

/-! ### One call -/

/-- A condition that a call keeps, wherever it breaks, is what it fails with. -/
theorem runs_call {c : Call} {inv pre kept : Disk → Prop} {post : Value c → Disk → Prop}
    (hinv : ∀ d, kept d → inv d) (hbreak : ∀ d b, pre d → kept (broken sha256 git b c d))
    (hcall : ∀ d, pre d → kept (reliable sha256 git c d).2 ∧
      ∀ a, (reliable sha256 git c d).1 = .ok a → post a (reliable sha256 git c d).2) :
    Runs sha256 git outcome inv pre (request c) post fun _ => kept := by
  apply Triple.lift
  rintro ⟨n, d⟩ hd
  unfold faulty
  cases outcome n with
  | none =>
    obtain ⟨hkept, hpost⟩ := hcall d hd
    refine ⟨hinv _ hkept, ?_⟩
    dsimp only
    cases hreply : (reliable sha256 git c d).1 with
    | ok a => exact hpost a hreply
    | error e => exact hkept
  | some b => exact ⟨hinv _ (hbreak d b hd), hbreak d b hd⟩

/-- A call that happens as a whole or not at all. -/
theorem runs_request {c : Call} {inv pre kept : Disk → Prop} {post : Value c → Disk → Prop}
    (hwhole : ∀ b d, broken sha256 git b c d
      = if b.happened then (reliable sha256 git c d).2 else d)
    (hinv : ∀ d, kept d → inv d) (hpre : ∀ d, pre d → kept d)
    (hcall : ∀ d, pre d → kept (reliable sha256 git c d).2 ∧
      ∀ a, (reliable sha256 git c d).1 = .ok a → post a (reliable sha256 git c d).2) :
    Runs sha256 git outcome inv pre (request c) post fun _ => kept := by
  refine runs_call hinv (fun d b hd => ?_) hcall
  rw [hwhole]
  split_ifs
  · exact (hcall d hd).1
  · exact hpre d hd

/-! ### Before the renames -/

/-- An operation has its effect, or none. -/
theorem attempt_cases (d : Disk) (x : Except OsError Disk) :
    (attempt d x).2 = d ∨ ∃ d', x = .ok d' ∧ attempt d x = (.ok (), d') := by
  cases x with
  | error e => exact .inl rfl
  | ok d' => exact .inr ⟨d', rfl, rfl⟩

theorem change_eq_ok {d' : Disk} {p : Place}
    {f : FileTree Component → Except OsError (FileTree Component)} (h : d.change p f = .ok d') :
    ∃ tree tree', d.entry p = some (.directory tree) ∧ f tree = .ok tree' ∧
      d' = d.put p (some (.directory tree')) := by
  unfold Disk.change at h
  split at h
  · rename_i tree hentry
    cases hf : f tree with
    | error e =>
      rw [hf] at h
      cases h
    | ok tree' =>
      rw [hf] at h
      exact ⟨tree, tree', hentry, hf, (Except.ok.inj h).symm⟩
  · cases h
  · cases h

theorem Untouched.put (h : Untouched previous d) (e : Option Entry) :
    Untouched previous (d.put .staging e) := by
  constructor
  · exact h.current
  · rw [Disk.entry_put_of_ne (by decide), h.backup]

/-- What is written in the staging directory leaves the rest as it is. -/
theorem Untouched.change (h : Untouched previous d) {name : Str}
    (f : Path → Component → FileTree Component → Except OsError (FileTree Component)) :
    Untouched previous (attempt d do
      let (parent, k) ← splitName name
      d.change .staging (f parent k)).2 := by
  rcases attempt_cases d (do
      let (parent, k) ← splitName name
      d.change .staging (f parent k)) with hsame | ⟨d', hx, hattempt⟩
  · rw [hsame]
    exact h
  · rw [hattempt]
    obtain ⟨i, -, hchange⟩ := bind_eq_ok.mp hx
    obtain ⟨_, _, -, -, rfl⟩ := change_eq_ok hchange
    exact h.put _

/-- Quiet calls do so. -/
theorem Untouched.reliable {c : Call} (hc : Quiet c) (h : Untouched previous d) :
    Untouched previous (reliable sha256 git c d).2 := by
  cases c with
  | git args input => exact h
  | exists_ p => exact h
  | isSymlink p => exact h
  | check p allowLegacy => exact h
  | makeDestinationParent => exact h
  | mkdtemp => exact ⟨h.current, rfl⟩
  | mkdir p =>
    obtain rfl : p = .staging := hc
    rcases attempt_cases d (if (d.entry .staging).isSome then .error .exists_
      else if d.hasParent .staging then .ok (d.put .staging (some (.directory .empty)))
      else .error .noEntry) with hsame | ⟨d', hx, hattempt⟩
    · rw [KernelInputs.reliable, hsame]
      exact h
    · rw [KernelInputs.reliable, hattempt]
      split_ifs at hx
      obtain rfl := Except.ok.inj hx
      exact h.put _
  | makeParents p name =>
    obtain rfl : p = .staging := hc
    exact h.change fun parent _ tree => tree.mkdirs [] parent
  | writeBytes p name b =>
    obtain rfl : p = .staging := hc
    exact h.change fun parent k tree => tree.writeBytes parent k b
  | chmod p name mode =>
    obtain rfl : p = .staging := hc
    exact h.change fun parent k tree => tree.chmod parent k mode
  | replace source target => exact hc.elim
  | rmtree => exact hc.elim
  | report => exact h
  | poll => exact h

/-- Also where they break. -/
theorem Untouched.broken {c : Call} (hc : Quiet c) (h : Untouched previous d) (b : Break) :
    Untouched previous (broken sha256 git b c d) := by
  have hhappened : Untouched previous (if b.happened then (KernelInputs.reliable sha256 git c d).2
      else d) := by
    split_ifs
    · exact h.reliable hc
    · exact h
  cases c with
  | makeParents p name =>
    obtain rfl : p = .staging := hc
    exact h.put _
  | writeBytes p name bytes =>
    obtain rfl : p = .staging := hc
    exact h.put _
  | chmod p name mode =>
    obtain rfl : p = .staging := hc
    exact h.put _
  | rmtree => exact hc.elim
  | _ => exact hhappened

/-- A quiet program. -/
theorem runs_quiet {α : Type} {p : Updater α} (hp : Built id Quiet p) :
    Keeps sha256 git outcome commit previous (Untouched previous) p
      fun _ => Untouched previous := by
  have hcall : ∀ c (s : Nat × Disk), Quiet c → Untouched previous s.2 →
      Untouched previous (faulty sha256 git outcome c s).2.2 := by
    intro c s hc hs
    unfold faulty
    cases outcome s.1 with
    | none => exact hs.reliable hc
    | some b => exact hs.broken hc b
  have hframe : Triple (faulty sha256 git outcome) (fun s => Untouched previous s.2)
      (fun s => Untouched previous s.2) p.run fun _ s => Untouched previous s.2 :=
    Triple.frame hcall hp.callsOnly
  refine (hframe.mono_inv fun s hs => hs.safe).mono (fun s hs => hs) fun r s hs => ?_
  cases r with
  | ok a => exact hs
  | error e => exact hs.safe

theorem built_request {c : Call} (hc : Quiet c) : Built id Quiet (request c) :=
  .lift hc id fun _ => rfl

theorem built_computed {α : Type} (x : Except PyError α) : Built id Quiet (computed x) := by
  cases x with
  | ok a => exact .pure a
  | error e => exact .throw e

theorem built_exactCommit (commit : Str) : Built id Quiet (exactCommit commit) := by
  have hend : ∀ resolved : Str, Built id Quiet (do
      if strip resolved ≠ commit then throw (.snapshot .notTheCommit)
      return commit : Updater Str) := by
    intro resolved
    split_ifs
    · exact .bind (.throw _) fun _ => .pure _
    · exact .pure _
  have hrest : Built id Quiet (do
      let resolved ← request
        (.git [lit "rev-parse", lit "--verify", commit ++ lit "^\x7bcommit\x7d"] [])
      let resolved ← computed (orRaise (decodeUtf8 resolved) .value)
      if strip resolved ≠ commit then throw (.snapshot .notTheCommit)
      return commit : Updater Str) :=
    .bind (built_request trivial) fun _ => .bind (built_computed _) hend
  unfold exactCommit
  by_cases hcommit : ¬ IsCommitId commit
  · rw [if_pos hcommit]
    exact .bind (.throw _) fun _ => hrest
  · rw [if_neg hcommit]
    exact hrest

/-- Exporting to the staging directory is quiet. -/
theorem built_exportFiles (sha256 : Sha256) (commit : Str) :
    Built id Quiet (exportFiles sha256 commit .staging) := by
  have hentry : ∀ contents progress e,
      Built id Quiet (exportEntry sha256 contents .staging progress e) := by
    intro contents progress e
    refine .bind (built_computed _) fun _ => ?_
    refine .bind (built_request rfl) fun _ => ?_
    refine .bind (built_request rfl) fun _ => ?_
    refine .bind (built_computed _) fun _ => ?_
    exact .bind (built_request rfl) fun _ => .pure _
  refine .bind (.bind (built_request trivial) fun _ => built_computed _) fun entries => ?_
  refine .bind (built_computed _) fun batch => ?_
  refine .bind (built_request trivial) fun contents => ?_
  refine .bind (.foldlM (hentry contents) entries _) fun progress => ?_
  split_ifs
  · exact .bind (.throw _) fun _ => .pure _
  · exact .pure _

/-- A complete object ID is what is returned. -/
theorem exactCommit_ok {σ : Type} {h : Handler Call Reply σ} {s s' : σ} {c : Str}
    (hexec : exec h (exactCommit commit) s = (.ok c, s')) : c = commit ∧ IsCommitId commit := by
  unfold exactCommit at hexec
  by_cases hcommit : ¬ IsCommitId commit
  · rw [if_pos hcommit] at hexec
    cases hexec
  · rw [if_neg hcommit] at hexec
    obtain ⟨_, s₁, -, hexec⟩ := exec_bind_eq_ok hexec
    obtain ⟨resolved, s₂, -, hexec⟩ := exec_bind_eq_ok hexec
    by_cases hresolved : strip resolved ≠ commit
    · rw [if_pos hresolved] at hexec
      cases hexec
    · rw [if_neg hresolved] at hexec
      exact ⟨(Except.ok.inj (Prod.mk.inj hexec).1).symm, not_not.mp hcommit⟩

/-- `ORIGIN.json` is in the staged directory once it has been written. -/
theorem runs_writeOrigin {metadata : Metadata} {text : List UInt8}
    (hread : (readText text).bind Json.loads = some metadata.toJson) (hsound : metadata.Sound)
    (hcommit : metadata.commit = commit) :
    Keeps sha256 git outcome commit previous (Untouched previous)
      (request (.writeBytes .staging (lit "ORIGIN.json") text))
      fun _ => Staged commit previous := by
  have hquiet : Quiet (.writeBytes .staging (lit "ORIGIN.json") text) := rfl
  refine runs_call (fun _ h => h) (fun d b hd => (hd.broken hquiet b).safe) fun d hd => ?_
  refine ⟨(hd.reliable hquiet).safe, fun _ hreply => ⟨hd.reliable hquiet, ?_⟩⟩
  rw [reliable, splitName_ORIGIN_JSON, ok_bind] at hreply ⊢
  dsimp only at hreply ⊢
  cases hx : d.change .staging fun tree => tree.writeBytes [] ORIGIN_JSON text with
  | error e =>
    rw [hx] at hreply
    cases hreply
  | ok d' =>
    obtain ⟨tree, tree', hentry, hwritten, rfl⟩ := change_eq_ok hx
    obtain ⟨f, hnode, rfl⟩ := file_of_writeBytes hwritten
    refine ⟨tree', f, metadata, ?_, hnode, hread, hsound, hcommit⟩
    exact Disk.entry_put (Disk.hasParent_of_entry hentry)

/-- The export leaves the `ORIGIN.json` of the commit. -/
theorem runs_exportSnapshot (hcommit : IsCommitId commit) :
    Keeps sha256 git outcome commit previous (Untouched previous)
      (exportSnapshot sha256 commit .staging) fun _ => Staged commit previous := by
  refine ((runs_quiet (built_exportFiles sha256 commit)).returns fun _ _ _ hexec =>
    sound_of_exportFiles hcommit hexec).bindE fun metadata => ?_
  rintro s ⟨hs, hmetadata, hsound⟩
  obtain ⟨text, hencode, hread⟩ := Json.readText_dumps (plain_toJson hsound)
  have hwrite : Keeps sha256 git outcome commit previous (Untouched previous)
      (do
        request (.writeBytes .staging (lit "ORIGIN.json") text)
        return metadata) fun _ => Staged commit previous :=
    (runs_writeOrigin hread hsound hmetadata).bindE fun _ => Triple.pure fun _ hs => hs
  rw [hencode]
  exact hwrite s hs

/-- A snapshot with that `ORIGIN.json` that is accepted is one of the commit. -/
theorem Staged.verified {origin : Origin} (h : Staged commit previous d)
    (hcheck : checkEntry sha256 (d.entry .staging) false = .ok origin) :
    Verified sha256 commit (d.entry .staging) := by
  obtain ⟨tree, f, metadata, hentry, hnode, hread, hsound, hcommit⟩ := h.origin
  refine ⟨origin, hcheck, ?_⟩
  rw [hentry] at hcheck
  have hload := loadOrigin_of_checkSnapshot hcheck
  rw [origin_of_loadOrigin hnode hsound hread hload]
  exact hcommit

/-! ### The renames -/

/-- The staged snapshot has been checked. -/
structure Checked (sha256 : Sha256) (commit : Str) (previous : Option Entry) (d : Disk) : Prop where
  untouched : Untouched previous d
  staging : Verified sha256 commit (d.entry .staging)

/-- The backup, if there is to be one. -/
def BackedUp (previous : Option Entry) (hadPrevious : Bool) (d : Disk) : Prop :=
  hadPrevious = true → ∃ tree, previous = some (.directory tree) ∧ d.entry .previous = previous

/-- There is nothing at the destination any more. -/
structure Vacated (sha256 : Sha256) (commit : Str) (previous : Option Entry) (hadPrevious : Bool)
    (d : Disk) : Prop where
  current : d.current = none
  staging : Verified sha256 commit (d.entry .staging)
  backup : BackedUp previous hadPrevious d
  absent : hadPrevious = false → previous = none

theorem Vacated.safe {hadPrevious : Bool} (h : Vacated sha256 commit previous hadPrevious d) :
    Safe sha256 commit previous d := by
  cases hadPrevious with
  | false => exact .inl (h.current.trans (h.absent rfl).symm)
  | true => exact .inr (.inr (h.backup rfl))

theorem Verified.directory {e : Option Entry} (h : Verified sha256 commit e) :
    ∃ tree, e = some (.directory tree) := by
  obtain ⟨origin, horigin, -⟩ := h
  exact directory_of_checkEntry horigin

/-- The test finds out whether there is a snapshot. -/
theorem runs_exists_current (hprevious : Replaceable previous) :
    Keeps sha256 git outcome commit previous (Checked sha256 commit previous)
      (request (.exists_ .current)) fun hadPrevious d => Checked sha256 commit previous d ∧
        (hadPrevious = true → ∃ tree, previous = some (.directory tree)) ∧
        (hadPrevious = false → previous = none) := by
  apply runs_request (fun _ _ => rfl) (fun _ h => h) fun _ hd => hd.untouched.safe
  intro d hd
  refine ⟨hd.untouched.safe, fun hadPrevious hreply => ⟨hd, ?_⟩⟩
  have hcurrent : d.entry .current = previous := hd.untouched.current
  rw [reliable, hcurrent] at hreply
  rcases hprevious with rfl | ⟨tree, rfl⟩
  · obtain rfl := Except.ok.inj hreply
    simp
  · obtain rfl := Except.ok.inj hreply
    simp

/-- The snapshot there was becomes the backup. -/
theorem runs_replace_current (hprevious : ∃ tree, previous = some (.directory tree)) :
    Keeps sha256 git outcome commit previous (Checked sha256 commit previous)
      (request (.replace .current .previous)) fun _ => Vacated sha256 commit previous true := by
  apply runs_request (fun _ _ => rfl) (fun _ h => h) fun _ hd => hd.untouched.safe
  intro d hd
  obtain ⟨tree, htree⟩ := hprevious
  obtain ⟨staged, hstaged⟩ := hd.staging.directory
  have hparent : d.hasParent .previous = true :=
    Disk.hasParent_of_entry (p := .staging) hstaged
  have hcurrent : d.entry .current = some (.directory tree) := hd.untouched.current.trans htree
  have hvacated : Vacated sha256 commit previous true
      ((d.put .current none).put .previous (some (.directory tree))) := by
    refine ⟨rfl, ?_, fun _ => ⟨tree, htree, ?_⟩, fun h => by cases h⟩
    · rw [Disk.entry_put_of_ne (by decide), Disk.entry_put_of_ne (by decide)]
      exact hd.staging
    · rw [Disk.entry_put (by rwa [Disk.hasParent_put]), htree]
  rw [reliable, Disk.rename_directory hcurrent hparent hd.untouched.backup]
  exact ⟨hvacated.safe, fun _ _ => hvacated⟩

/-- The staged snapshot is put in its place; where that breaks, the other can still be put back. -/
theorem runs_replace_staging {hadPrevious : Bool} :
    Runs sha256 git outcome (Safe sha256 commit previous)
      (Vacated sha256 commit previous hadPrevious) (request (.replace .staging .current))
      (fun _ d => Verified sha256 commit d.current)
      fun _ d => Safe sha256 commit previous d ∧ BackedUp previous hadPrevious d := by
  apply runs_request (fun _ _ => rfl) (fun _ h => h.1) fun _ hd => ⟨hd.safe, hd.backup⟩
  intro d hd
  obtain ⟨staged, hstaged⟩ := hd.staging.directory
  have hverified : Verified sha256 commit (some (.directory staged)) := hstaged ▸ hd.staging
  rw [reliable, Disk.rename_directory (q := .current) hstaged rfl hd.current]
  refine ⟨⟨.inr (.inl hverified), fun h => ?_⟩, fun _ _ => hverified⟩
  obtain ⟨tree, htree, hentry⟩ := hd.backup h
  refine ⟨tree, htree, ?_⟩
  show Disk.entry ((d.put .staging none).put .current (some (.directory staged))) .previous = _
  rw [Disk.entry_put_of_ne (by decide), Disk.entry_put_of_ne (by decide), hentry]

/-- The backup is put back, or nothing happens. -/
theorem runs_replace_previous :
    Keeps sha256 git outcome commit previous
      (fun d => Safe sha256 commit previous d ∧ BackedUp previous true d)
      (request (.replace .previous .current)) fun _ => Safe sha256 commit previous := by
  apply runs_request (fun _ _ => rfl) (fun _ h => h) fun _ hd => hd.1
  rintro d ⟨hsafe, hbackup⟩
  obtain ⟨tree, htree, hentry⟩ := hbackup rfl
  have hkept : Safe sha256 commit previous
      (reliable sha256 git (.replace .previous .current) d).2 := by
    rcases attempt_cases d (d.rename .previous .current) with hsame | ⟨d', hx, hattempt⟩
    · rw [reliable, hsame]
      exact hsafe
    · rw [reliable, hattempt]
      left
      unfold Disk.rename at hx
      rw [hentry, htree] at hx
      dsimp only at hx
      rw [if_pos (by rfl)] at hx
      split at hx
      · obtain rfl := Except.ok.inj hx
        exact htree.symm
      · cases hx
  exact ⟨hkept, fun _ _ => hkept⟩

/-! ### The whole of it -/

/-- A call without an effect. -/
theorem runs_idle {c : Call} {kept : Disk → Prop}
    (hidle : ∀ d, (reliable sha256 git c d).2 = d ∧ ∀ b, broken sha256 git b c d = d)
    (hkept : ∀ d, kept d → Safe sha256 commit previous d) :
    Runs sha256 git outcome (Safe sha256 commit previous) kept (request c) (fun _ => kept)
      fun _ => kept := by
  refine runs_call hkept (fun d b hd => ?_) fun d hd => ?_
  · rwa [(hidle d).2 b]
  · rw [(hidle d).1]
    exact ⟨hd, fun _ _ => hd⟩

/-- A point at which an interruption may come. -/
theorem runs_poll {kept : Disk → Prop} (hkept : ∀ d, kept d → Safe sha256 commit previous d) :
    Runs sha256 git outcome (Safe sha256 commit previous) kept (request .poll) (fun _ => kept)
      fun _ => kept :=
  runs_idle (fun _ => ⟨rfl, fun _ => ite_self _⟩) hkept

theorem Verified.safe (h : Verified sha256 commit d.current) : Safe sha256 commit previous d :=
  .inr (.inl h)

/-- After the installation too. -/
theorem runs_poll_verified :
    Runs sha256 git outcome (Safe sha256 commit previous)
      (fun d => Verified sha256 commit d.current) (request .poll)
      (fun _ d => Verified sha256 commit d.current) fun _ d => Verified sha256 commit d.current :=
  runs_poll fun _ hd => hd.safe

/-- The checked snapshot is installed. -/
theorem runs_installSnapshot (hprevious : Replaceable previous) :
    Keeps sha256 git outcome commit previous (Checked sha256 commit previous)
      (installSnapshot .staging .current .previous)
      fun _ d => Verified sha256 commit d.current := by
  have hrename : ∀ hadPrevious, Keeps sha256 git outcome commit previous
      (Vacated sha256 commit previous hadPrevious)
      (tryCatch (request (.replace .staging .current)) fun e => do
        if hadPrevious then request (.replace .previous .current)
        throw e) fun _ d => Verified sha256 commit d.current := by
    intro hadPrevious
    refine runs_replace_staging.tryCatch fun e => ?_
    cases hadPrevious with
    | false => exact Triple.throw fun _ hs => hs.1
    | true => exact runs_replace_previous.bindE fun _ => Triple.throw fun _ hs => hs
  refine (runs_exists_current hprevious).bindE fun hadPrevious => ?_
  rintro s ⟨hchecked, hpresent, habsent⟩
  cases hadPrevious with
  | false =>
    have hcurrent : s.2.current = none := hchecked.untouched.current.trans (habsent rfl)
    exact hrename false s ⟨hcurrent, hchecked.staging, fun h => (by cases h), habsent⟩
  | true =>
    exact ((runs_replace_current (hpresent rfl)).bindE fun _ => hrename true) s hchecked

/-- The staged snapshot is written, checked and installed. -/
theorem runs_stageSnapshot (hprevious : Replaceable previous) (hcommit : IsCommitId commit) :
    Keeps sha256 git outcome commit previous (Untouched previous)
      (stageSnapshot sha256 commit) fun _ d => Verified sha256 commit d.current := by
  have hcheck : Keeps sha256 git outcome commit previous (Staged commit previous)
      (request (.check .staging false)) fun _ => Checked sha256 commit previous :=
    runs_request (fun _ _ => rfl) (fun _ h => h) (fun _ hd => hd.untouched.safe)
      fun d hd => ⟨hd.untouched.safe, fun origin hreply => ⟨hd.untouched, hd.verified hreply⟩⟩
  refine (runs_exportSnapshot hcommit).bindE fun metadata => ?_
  refine hcheck.bindE fun _ => (runs_installSnapshot hprevious).bindE fun _ => ?_
  exact (runs_poll_verified.monoE (fun _ hs => hs) (fun _ _ hs => hs) fun _ _ hs => hs.safe).bindE
    fun _ => Triple.pure fun _ hs => hs

/-- Whatever is left of the temporary directory, the destination stays. -/
theorem runs_rmtree {kept : Disk → Prop}
    (hleft : ∀ (d : Disk) temporary, kept d → kept { d with temporary })
    (hkept : ∀ d, kept d → Safe sha256 commit previous d) :
    Runs sha256 git outcome (Safe sha256 commit previous) kept (request .rmtree) (fun _ => kept)
      fun _ => kept :=
  runs_call hkept (fun d b hd => hleft d b.temporary hd) fun d hd =>
    ⟨hleft d none hd, fun _ _ => hleft d none hd⟩

/-- The cleanup after an installation removes what is not needed any more. -/
theorem runs_cleanUp_true :
    Runs sha256 git outcome (Safe sha256 commit previous)
      (fun d => Verified sha256 commit d.current) (cleanUp true)
      (fun _ d => Verified sha256 commit d.current)
      fun _ d => Verified sha256 commit d.current := by
  refine runs_poll_verified.bindE fun _ => ?_
  exact runs_rmtree (fun _ _ hd => hd) fun _ hd => Verified.safe hd

/-- Where no backup is found, the destination has what it should. -/
theorem runs_exists_previous :
    Keeps sha256 git outcome commit previous (Safe sha256 commit previous)
      (request (.exists_ .previous)) fun found d => Safe sha256 commit previous d ∧
        (found = false → d.current = previous ∨ Verified sha256 commit d.current) := by
  apply runs_request (fun _ _ => rfl) (fun _ h => h) fun _ hd => hd
  refine fun d hd => ⟨hd, fun found hreply => ⟨hd, fun hnone => ?_⟩⟩
  rcases hd with hcurrent | hverified | ⟨tree, htree, hbackup⟩
  · exact .inl hcurrent
  · exact .inr hverified
  · rw [reliable, hbackup, htree] at hreply
    obtain rfl := Except.ok.inj hreply
    cases hnone

/-- The cleanup after a failure removes nothing that is needed. -/
theorem runs_cleanUp_false :
    Keeps sha256 git outcome commit previous (Safe sha256 commit previous) (cleanUp false)
      fun _ => Safe sha256 commit previous := by
  -- the only copy would be found to be there
  have hexists : Keeps sha256 git outcome commit previous (Safe sha256 commit previous)
      ((! ·) <$> request (.exists_ .previous)) fun removable d => Safe sha256 commit previous d ∧
        (removable = true → d.current = previous ∨ Verified sha256 commit d.current) :=
    runs_exists_previous.bindE fun found => Triple.pure fun _ hs =>
      ⟨hs.1, fun h => hs.2 (by simpa using h)⟩
  refine (runs_poll fun _ hs => hs).bindE fun _ => hexists.bindE fun removable => ?_
  cases removable with
  | false =>
    have hreport : Keeps sha256 git outcome commit previous (Safe sha256 commit previous)
        (request .report) fun _ => Safe sha256 commit previous :=
      runs_idle (fun _ => ⟨rfl, fun _ => ite_self _⟩) fun _ hd => hd
    exact hreport.mono (fun _ hs => hs.1) fun _ _ hs => hs
  | true =>
    have hkept : ∀ d : Disk, d.current = previous ∨ Verified sha256 commit d.current →
        Safe sha256 commit previous d := fun d hd => hd.elim .inl fun h => h.safe
    have hremove : Runs sha256 git outcome (Safe sha256 commit previous)
        (fun d => d.current = previous ∨ Verified sha256 commit d.current) (request .rmtree)
        (fun _ d => d.current = previous ∨ Verified sha256 commit d.current)
        fun _ d => d.current = previous ∨ Verified sha256 commit d.current :=
      runs_rmtree (fun _ _ hd => hd) hkept
    exact hremove.monoE (fun _ hs => hs.2 rfl) (fun _ _ hs => hkept _ hs) fun _ _ hs => hkept _ hs

/-- Where the path leads to nothing, there is nothing or a link. -/
theorem runs_exists_untouched :
    Keeps sha256 git outcome commit previous (Untouched previous) (request (.exists_ .current))
      fun present d => Untouched previous d ∧
        (present = false → previous = none ∨ ∃ resolves, previous = some (.symlink resolves)) := by
  apply runs_request (fun _ _ => rfl) (fun _ h => h) fun _ hd => hd.safe
  refine fun d hd => ⟨hd.safe, fun present hreply => ⟨hd, ?_⟩⟩
  have hcurrent : d.entry .current = previous := hd.current
  rw [reliable, hcurrent] at hreply
  obtain rfl := Except.ok.inj hreply
  rcases previous with - | ⟨tree | resolves | -⟩
  · simp
  · simp
  · simp
  · simp

/-- Where that is not a link, there is nothing. -/
theorem runs_isSymlink :
    Keeps sha256 git outcome commit previous
      (fun d => Untouched previous d ∧
        (previous = none ∨ ∃ resolves, previous = some (.symlink resolves)))
      (request (.isSymlink .current))
      fun present d => Untouched previous d ∧ (present = false → previous = none) := by
  apply runs_request (fun _ _ => rfl) (fun _ h => h) fun _ hd => hd.1.safe
  refine fun d hd => ⟨hd.1.safe, fun present hreply => ⟨hd.1, fun habsent => ?_⟩⟩
  have hcurrent : d.entry .current = previous := hd.1.current
  rw [reliable, hcurrent] at hreply
  rcases hd.2 with hnone | ⟨resolves, rfl⟩
  · exact hnone
  · obtain rfl := Except.ok.inj hreply
    cases habsent

/-- What passes the check can be replaced. -/
theorem runs_check_current :
    Keeps sha256 git outcome commit previous (Untouched previous) (request (.check .current true))
      fun _ d => Untouched previous d ∧ Replaceable previous := by
  apply runs_request (fun _ _ => rfl) (fun _ h => h) fun _ hd => hd.safe
  refine fun d hd => ⟨hd.safe, fun origin hreply => ⟨hd, .inr ?_⟩⟩
  obtain ⟨tree, htree⟩ := directory_of_checkEntry hreply
  exact ⟨tree, hd.current.symm.trans htree⟩

/-- What is there is checked before anything is done. -/
theorem runs_checkPresent {α : Type} {rest : Updater α} {post : α → Disk → Prop}
    (hrest : Replaceable previous →
      Keeps sha256 git outcome commit previous (Untouched previous) rest post) :
    Keeps sha256 git outcome commit previous (Untouched previous)
      (do
        let present ← do
          if ← request (.exists_ .current) then pure true else request (.isSymlink .current)
        if present then
          let _ ← request (.check .current true)
        rest) post := by
  have hjoin : ∀ present, Keeps sha256 git outcome commit previous
      (fun d => Untouched previous d ∧ (present = false → previous = none))
      (do
        if present then
          let _ ← request (.check .current true)
        rest) post := by
    intro present
    cases present with
    | false => exact fun s hs => hrest (.inl (hs.2 rfl)) s hs.1
    | true =>
      refine (runs_check_current.bindE fun _ => ?_).mono (fun _ hs => hs.1) fun _ _ hs => hs
      exact fun s hs => hrest hs.2 s hs.1
  refine runs_exists_untouched.bindE fun there => ?_
  cases there with
  | true => exact (hjoin true).mono (fun _ hs => ⟨hs.1, fun h => by cases h⟩) fun _ _ hs => hs
  | false =>
    exact (runs_isSymlink.mono (fun _ hs => ⟨hs.1, hs.2 rfl⟩) fun _ _ hs => hs).bindE
      fun present => hjoin present

/-- What is left to do after a failure. -/
theorem runs_finish_error (e : PyError) :
    Keeps sha256 git outcome commit previous (Safe sha256 commit previous)
      (tryFinally (do
        let metadata ← computed (.error e : Except PyError Metadata)
        request .poll
        return metadata) (cleanUp false)) fun _ d => Verified sha256 commit d.current := by
  have hthrow : Triple (faulty sha256 git outcome) (fun s => Safe sha256 commit previous s.2)
      (fun s => Safe sha256 commit previous s.2)
      (do
        let metadata ← computed (.error e : Except PyError Metadata)
        request .poll
        return metadata : Updater Metadata).run
      fun r s => r.isOk = false ∧ Safe sha256 commit previous s.2 :=
    Triple.ret fun _ hs => ⟨rfl, hs⟩
  apply hthrow.tryFinally
  intro r
  cases r with
  | ok metadata => exact fun s hs => absurd hs.1 (by simp [Except.isOk, Except.toBool])
  | error e' =>
    exact runs_cleanUp_false.monoE (fun _ hs => hs.2) (fun _ _ hs => hs) fun _ _ hs => hs

/-- What is left to do after the installation. -/
theorem runs_finish_ok (metadata : Metadata) :
    Keeps sha256 git outcome commit previous (fun d => Verified sha256 commit d.current)
      (tryFinally (do
        let metadata ← computed (.ok metadata : Except PyError Metadata)
        request .poll
        return metadata) (cleanUp true)) fun _ d => Verified sha256 commit d.current := by
  have hreturn : Runs sha256 git outcome (Safe sha256 commit previous)
      (fun d => Verified sha256 commit d.current) (do
        let metadata ← computed (.ok metadata : Except PyError Metadata)
        request .poll
        return metadata) (fun _ d => Verified sha256 commit d.current) fun _ d =>
          Verified sha256 commit d.current :=
    runs_poll_verified.bindE fun _ => Triple.pure fun _ hs => hs
  apply Triple.tryFinally hreturn
  intro r
  cases r with
  | ok metadata =>
    exact runs_cleanUp_true.monoE (fun _ hs => hs) (fun _ _ hs => hs) fun _ _ hs => Verified.safe hs
  | error e =>
    exact runs_cleanUp_true.monoE (fun _ hs => hs) (fun _ _ hs => Verified.safe hs)
      fun _ _ hs => Verified.safe hs

/-- The staged snapshot takes the place of what there was. -/
theorem runs_replace (hprevious : Replaceable previous) (hcommit : IsCommitId commit) :
    Keeps sha256 git outcome commit previous (Untouched previous)
      (do
        let result ← ExceptT.mk (.ok <$> (stageSnapshot sha256 commit).run)
        tryFinally (do
          let metadata ← computed result
          request .poll
          return metadata) (cleanUp result.isOk)) fun _ d => Verified sha256 commit d.current := by
  refine (runs_stageSnapshot hprevious hcommit).result.bindE fun result => ?_
  cases result with
  | ok metadata => exact runs_finish_ok metadata
  | error e => exact runs_finish_error e

/-- So does a whole update. -/
theorem runs_updateSnapshot :
    Keeps sha256 git outcome commit previous (Untouched previous) (updateSnapshot sha256 commit)
      fun _ d => Verified sha256 commit d.current := by
  refine ((runs_quiet (built_exactCommit commit)).returns fun _ _ _ => exactCommit_ok).bindE
    fun c => ?_
  rintro s ⟨hs, hc, hcommit⟩
  rw [hc]
  have hrest : Replaceable previous → Keeps sha256 git outcome commit previous (Untouched previous)
      (do
        request .makeDestinationParent
        request .mkdtemp
        request (.mkdir .staging)
        let result ← ExceptT.mk (.ok <$> (stageSnapshot sha256 commit).run)
        tryFinally (do
          let metadata ← computed result
          request .poll
          return metadata) (cleanUp result.isOk)) fun _ d => Verified sha256 commit d.current := by
    intro hprevious
    refine (runs_quiet (built_request (c := .makeDestinationParent) trivial)).bindE fun _ => ?_
    refine (runs_quiet (built_request (c := .mkdtemp) trivial)).bindE fun _ => ?_
    refine (runs_quiet (built_request (c := .mkdir .staging) rfl)).bindE fun _ => ?_
    exact runs_replace hprevious hcommit
  exact runs_checkPresent hrest s hs

/-- An update never loses the snapshot there was: wherever calls break, at every point and in the
end it is in its place, or a checked one is, or it is intact as the backup; and where the update
succeeds, a checked one is in its place. -/
theorem updateSnapshot_safe (sha256 : Sha256) (git : Git) (outcome : Nat → Option Break)
    (commit : Str) (previous : Option Entry) :
    (∀ s ∈ (updateSnapshot sha256 commit).run.visited (faulty sha256 git outcome)
        (0, { current := previous, temporary := none }), Safe sha256 commit previous s.2) ∧
    Safe sha256 commit previous (exec (faulty sha256 git outcome) (updateSnapshot sha256 commit)
      (0, { current := previous, temporary := none })).2.2 ∧
    ∀ metadata s, exec (faulty sha256 git outcome) (updateSnapshot sha256 commit)
        (0, { current := previous, temporary := none }) = (.ok metadata, s) →
      Verified sha256 commit s.2.current := by
  have hupdate : Keeps sha256 git outcome commit previous (Untouched previous)
      (updateSnapshot sha256 commit) fun _ d => Verified sha256 commit d.current :=
    runs_updateSnapshot
  obtain ⟨hvisited, hends⟩ := hupdate (0, { current := previous, temporary := none }) ⟨rfl, rfl⟩
  refine ⟨hvisited, ?_, fun metadata s hexec => ?_⟩
  · unfold exec
    cases hresult : ((updateSnapshot sha256 commit).run.run (faulty sha256 git outcome)
        (0, { current := previous, temporary := none })).1 with
    | ok metadata =>
      rw [hresult] at hends
      exact .inr (.inl hends)
    | error e =>
      rw [hresult] at hends
      exact hends
  · unfold exec at hexec
    rw [hexec] at hends
    exact hends

end KernelInputs
