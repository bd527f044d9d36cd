import Peios.KernelInputs.Equiv.Export
import Peios.StyleTools.Bin

/-!
# What installing tools leaves

`installAll_safe` says that in every state that a run goes through, whatever breaks, an entry that
a tool of the lock is installed at is as it was or the executable that the lock describes, and that
at the end of a run that raises nothing every tool is.  It is about locks whose tools do not take
each other's places (`Separate`).
-/

namespace StyleTools

open Python FileTree Interaction Interaction.Prog KernelInputs

variable {sha256 : Sha256} {tar : Tar} {world : World}

/-- An entry holds the executable that the lock describes. -/
def Verified (sha256 : Sha256) (entry : Tool) (o : Option Item) : Prop :=
  ∃ f, fileOf o = some f ∧ f.readable = true ∧
    (entry.get? (lit "binary_sha256")).bind Json.Value.string? = some (sha256.hexdigest f.content)

/-- No tool has the name that another, or itself, is written under at first. -/
def Separate (lock : Dict Component Tool) : Prop :=
  ∀ i ∈ lock.items, ∀ j ∈ lock.items, temporaryOf i.1 ≠ j.1

instance (lock : Dict Component Tool) : Decidable (Separate lock) :=
  inferInstanceAs (Decidable (∀ i ∈ lock.items, ∀ j ∈ lock.items, temporaryOf i.1 ≠ j.1))

/-! ### Calls -/

/-- Only this entry has changed. -/
def ChangesOnly (k : Component) (start bin : Bin) : Prop := ∀ j, j ≠ k → bin j = start j

theorem Bin.changesOnly_set (bin : Bin) (k : Component) (o : Option Item) :
    ChangesOnly k bin (bin.set k o) := fun _ hj => Bin.set_of_ne hj

/-- Changing an entry's file changes nothing else. -/
theorem Bin.modify_spec {bin bin' : Bin} {k : Component} {g : Regular → Regular}
    (h : bin.modify k g = some bin') : ChangesOnly k bin bin' ∧
      ∃ old, fileOf (bin k) = some old ∧ fileOf (bin' k) = some (g old) := by
  unfold Bin.modify at h
  split at h
  · rename_i old hk
    obtain rfl := Option.some.inj h
    exact ⟨Bin.changesOnly_set _ _ _, old, by rw [hk]; rfl, by rw [Bin.set_self]; rfl⟩
  · rename_i old hk
    obtain rfl := Option.some.inj h
    exact ⟨Bin.changesOnly_set _ _ _, old, by rw [hk]; rfl, by rw [Bin.set_self]; rfl⟩
  · cases h

/-- A write gives the entry a file with this content, which can be written again, and changes
nothing else. -/
theorem Bin.write_spec {bin bin' : Bin} {k : Component} {content : List UInt8}
    (h : bin.write k content = some bin') : ChangesOnly k bin bin' ∧
      ∃ f, fileOf (bin' k) = some f ∧ f.content = content ∧ f.writable = true := by
  unfold Bin.write at h
  split at h
  · obtain rfl := Option.some.inj h
    exact ⟨Bin.changesOnly_set _ _ _, _, by rw [Bin.set_self]; rfl, rfl, rfl⟩
  · obtain rfl := Option.some.inj h
    exact ⟨Bin.changesOnly_set _ _ _, _, by rw [Bin.set_self]; rfl, rfl, rfl⟩
  · split_ifs at h with hwritable
    obtain ⟨honly, old, hold, hnew⟩ := Bin.modify_spec h
    rw [hold] at hwritable
    exact ⟨honly, _, hnew, rfl, hwritable⟩

/-- A change that fails changes nothing else either. -/
theorem changesOnly_attempt {bin : Bin} {k : Component} {o : Option Bin}
    (h : ∀ bin', o = some bin' → ChangesOnly k bin bin') : ChangesOnly k bin (attempt bin o).2 := by
  cases o with
  | none => exact fun _ _ => rfl
  | some bin' => exact h bin' rfl

theorem changesOnly_attempt_write (bin : Bin) (k : Component) (content : List UInt8) :
    ChangesOnly k bin (attempt bin (bin.write k content)).2 :=
  changesOnly_attempt fun _ h => (Bin.write_spec h).1

theorem changesOnly_attempt_modify (bin : Bin) (k : Component) (g : Regular → Regular) :
    ChangesOnly k bin (attempt bin (bin.modify k g)).2 :=
  changesOnly_attempt fun _ h => (Bin.modify_spec h).1

/-- A rename moves an entry, and changes no third one. -/
theorem Bin.rename_spec {bin bin' : Bin} {source target : Component} (hne : source ≠ target)
    (h : bin.rename source target = some bin') :
    bin' target = bin source ∧ bin' source = none ∧
      ∀ j, j ≠ source → j ≠ target → bin' j = bin j := by
  unfold Bin.rename at h
  split at h
  · cases h
  · cases h
  · rename_i item hitem
    split_ifs at h
    obtain rfl := Option.some.inj h
    refine ⟨?_, ?_, fun j hsource htarget => ?_⟩
    · rw [Bin.set_self, hitem]
    · rw [Bin.set_of_ne hne, Bin.set_self]
    · rw [Bin.set_of_ne htarget, Bin.set_of_ne hsource]

/-- What is said of the directory. -/
def OnBin (P : Bin → Prop) (s : Nat × Bin) : Prop := P s.2

/-- A call, that does what it is for or breaks. -/
theorem triple_request (c : Call) {inv pre : Bin → Prop} {post : Value c → Bin → Prop}
    (hok : ∀ net bin v, pre bin → (reliable net c bin).1 = .ok v → post v (reliable net c bin).2)
    (hinv : ∀ net bin, pre bin → inv (reliable net c bin).2)
    (hbroken : ∀ net b bin, pre bin → inv (broken net b c bin)) :
    Triple world.handler (OnBin inv) (OnBin pre) (request c).run
      (Triple.Ends (fun v => OnBin (post v)) fun _ => OnBin inv) := by
  refine Triple.lift fun s hs => ?_
  unfold World.handler
  cases hbreak : world.breaks s.1 with
  | some b => exact ⟨hbroken _ b s.2 hs, hbroken _ b s.2 hs⟩
  | none =>
    refine ⟨hinv _ s.2 hs, ?_⟩
    dsimp only
    cases hresult : (reliable (world.net s.1) c s.2).1 with
    | ok v => exact hok _ s.2 v hs hresult
    | error e => exact hinv _ s.2 hs

/-- A call that only looks. -/
def Looks : Call → Prop
  | .isFile _ | .readBytes _ | .fetch _ => True
  | _ => False

theorem snd_reliable_of_looks {c : Call} (hc : Looks c) (net : Network) (bin : Bin) :
    (reliable net c bin).2 = bin := by
  cases c with
  | isFile k => rfl
  | readBytes k => rfl
  | fetch url => rfl
  | writeBytes k b => exact hc.elim
  | chmod k mode => exact hc.elim
  | replace source target => exact hc.elim

theorem broken_of_looks {c : Call} (hc : Looks c) (net : Network) (b : Break) (bin : Bin) :
    broken net b c bin = bin := by
  unfold broken
  split_ifs
  · cases c with
    | writeBytes k b => exact hc.elim
    | isFile k => rfl
    | readBytes k => rfl
    | fetch url => rfl
    | chmod k mode => exact hc.elim
    | replace source target => exact hc.elim
  · rfl

/-- What a call that only looks returns is of the directory as it is. -/
theorem triple_look {c : Call} (hc : Looks c) (bin₀ : Bin) :
    Triple world.handler (OnBin (· = bin₀)) (OnBin (· = bin₀)) (request c).run
      (Triple.Ends (fun v => OnBin fun bin => bin = bin₀ ∧ ∃ net, (reliable net c bin₀).1 = .ok v)
        fun _ => OnBin (· = bin₀)) := by
  refine triple_request c ?_ ?_ ?_
  · rintro net bin v rfl hv
    exact ⟨snd_reliable_of_looks hc net bin, net, hv⟩
  · rintro net bin rfl
    exact snd_reliable_of_looks hc net bin
  · rintro net b bin rfl
    exact broken_of_looks hc net b bin

/-- What has been computed changes nothing. -/
theorem triple_computed {α : Type} (x : Except InstallError α) {inv pre : Nat × Bin → Prop} :
    Triple world.handler inv pre (computed x).run
      (Triple.Ends (fun a s => pre s ∧ x = .ok a) fun _ => pre) := by
  refine Triple.ret fun s hs => ?_
  cases x with
  | error e => exact hs
  | ok a => exact ⟨hs, rfl⟩

/-! ### Installing one tool -/

/-- What a tool that is being installed may have changed: where it is written at first, and where
it is installed, which holds the right executable then. -/
structure Changes (sha256 : Sha256) (name : Component) (entry : Tool) (start bin : Bin) : Prop where
  others : ∀ k, k ≠ name → k ≠ temporaryOf name → bin k = start k
  destination : bin name = start name ∨ Verified sha256 entry (bin name)

variable {name : Component} {entry : Tool} {start bin : Bin}

theorem Changes.refl : Changes sha256 name entry start start := ⟨fun _ _ _ => rfl, .inl rfl⟩

/-- Writing beside the destination. -/
theorem Changes.of_changesOnly (hne : temporaryOf name ≠ name)
    (h : ChangesOnly (temporaryOf name) start bin) : Changes sha256 name entry start bin :=
  ⟨fun k _ hk => h k hk, .inl (h name hne.symm)⟩

/-- A tool is said to be installed when it is. -/
theorem triple_isInstalled (name : Component) (entry : Tool) (start : Bin) :
    Triple world.handler (OnBin (· = start)) (OnBin (· = start)) (isInstalled sha256 name entry).run
      (Triple.Ends (fun r => OnBin fun bin => bin = start ∧
          (r = true → Verified sha256 entry (start name)))
        fun _ => OnBin (· = start)) := by
  refine (triple_look (c := .isFile name) trivial start).bindE fun found => ?_
  cases found with
  | false => exact Triple.pure fun s hs => ⟨hs.1, fun h => by cases h⟩
  | true =>
    have hread : Triple world.handler (OnBin (· = start))
        (OnBin fun bin => bin = start ∧ ∃ net, (reliable net (.isFile name) start).1 = .ok true)
        (request (.readBytes name)).run
        (Triple.Ends (fun content => OnBin fun bin =>
            bin = start ∧ ∃ net, (reliable net (.readBytes name) start).1 = .ok content)
          fun _ => OnBin (· = start)) :=
      (triple_look (c := .readBytes name) trivial start).monoE (fun s hs => hs.1)
        (fun _ _ h => h) fun _ _ h => h
    refine hread.bindE fun content => ?_
    refine ((triple_computed (entry.field "binary_sha256")).monoE (fun _ h => h) (fun _ _ h => h)
      fun _ s h => h.1).bindE fun expected => Triple.pure fun s hs => ⟨hs.1.1, fun hsame => ?_⟩
    obtain ⟨⟨-, net, hread⟩, hfield⟩ := hs
    have hexpected : entry.get? (lit "binary_sha256") = some expected := orRaise_eq_ok.mp hfield
    obtain ⟨f, hf, hreadable, rfl⟩ := contentOf_eq_ok.mp hread
    refine ⟨f, hf, hreadable, ?_⟩
    rw [hexpected]
    exact of_decide_eq_true hsame

/-- The executable that is taken out of an archive is the one that the lock describes. -/
theorem executableOf_ok {archive executable : List UInt8}
    (h : executableOf sha256 tar name entry archive = .ok executable) :
    (entry.get? (lit "binary_sha256")).bind Json.Value.string?
      = some (sha256.hexdigest executable) := by
  simp only [executableOf, throw_eq, error_bind, bind_eq_ok, ite_throw_eq_ok, not_not,
    Python.pure_eq, Except.ok.injEq] at h
  obtain ⟨_, -, -, _, -, executable', -, expected, hexpected, hsame, rfl⟩ := h
  rw [orRaise_eq_ok.mp hexpected]
  exact hsame

/-- The executable has been written beside its destination. -/
def Written (name : Component) (executable : List UInt8) (start bin : Bin) : Prop :=
  ChangesOnly (temporaryOf name) start bin ∧
    ∃ f, fileOf (bin (temporaryOf name)) = some f ∧ f.content = executable

/-- Writing the executable. -/
theorem triple_writeBytes (name : Component) (executable : List UInt8) (start : Bin) :
    Triple world.handler (OnBin (ChangesOnly (temporaryOf name) start)) (OnBin (· = start))
      (request (.writeBytes (temporaryOf name) executable)).run
      (Triple.Ends (fun _ => OnBin (Written name executable start))
        fun _ => OnBin (ChangesOnly (temporaryOf name) start)) := by
  refine triple_request _ ?_ ?_ ?_
  · rintro net bin _ rfl hok
    change (attempt bin (bin.write _ _)).1 = _ at hok
    show Written name executable bin (attempt bin (bin.write _ _)).2
    cases hwrite : bin.write (temporaryOf name) executable with
    | none =>
      rw [hwrite] at hok
      cases hok
    | some bin' =>
      obtain ⟨honly, f, hf, hcontent, -⟩ := Bin.write_spec hwrite
      exact ⟨honly, f, hf, hcontent⟩
  · rintro net bin rfl
    exact changesOnly_attempt_write _ _ _
  · rintro net b bin rfl
    unfold broken
    split_ifs
    · exact changesOnly_attempt_write _ _ _
    · exact fun _ _ => rfl

/-- Making it executable, which makes it readable too. -/
theorem triple_chmod (name : Component) (executable : List UInt8) (start : Bin) :
    Triple world.handler (OnBin (ChangesOnly (temporaryOf name) start))
      (OnBin (Written name executable start)) (request (.chmod (temporaryOf name) 0o755)).run
      (Triple.Ends (fun _ => OnBin fun bin => ChangesOnly (temporaryOf name) start bin ∧
          ∃ f, fileOf (bin (temporaryOf name)) = some f ∧ f.content = executable ∧
            f.readable = true)
        fun _ => OnBin (ChangesOnly (temporaryOf name) start)) := by
  have hchanges : ∀ net bin, Written name executable start bin → ChangesOnly (temporaryOf name) start
      (reliable net (.chmod (temporaryOf name) 0o755) bin).2 := by
    rintro net bin ⟨honly, -⟩ k hk
    exact (changesOnly_attempt_modify bin _ _ k hk).trans (honly k hk)
  refine triple_request _ ?_ hchanges ?_
  · intro net bin _ hwritten hok
    refine ⟨hchanges net bin hwritten, ?_⟩
    obtain ⟨-, f, hf, hcontent⟩ := hwritten
    change (attempt bin (bin.modify _ _)).1 = _ at hok
    show ∃ f, fileOf ((attempt bin (bin.modify _ _)).2 _) = some f ∧ _
    cases hmodify : bin.modify (temporaryOf name) _ with
    | none =>
      rw [hmodify] at hok
      cases hok
    | some bin' =>
      obtain ⟨-, old, hold, hnew⟩ := Bin.modify_spec hmodify
      obtain rfl := Option.some.inj (hold.symm.trans hf)
      exact ⟨_, hnew, hcontent, by simp [show Nat.testBit 0o755 8 = true by decide]⟩
  · rintro net b bin hwritten
    unfold broken
    split_ifs
    · exact hchanges net bin hwritten
    · exact hwritten.1

/-- Publishing it. -/
theorem triple_replace (hne : temporaryOf name ≠ name) {executable : List UInt8}
    (hexecutable : (entry.get? (lit "binary_sha256")).bind Json.Value.string?
      = some (sha256.hexdigest executable)) (start : Bin) :
    Triple world.handler (OnBin (Changes sha256 name entry start))
      (OnBin fun bin => ChangesOnly (temporaryOf name) start bin ∧
        ∃ f, fileOf (bin (temporaryOf name)) = some f ∧ f.content = executable ∧ f.readable = true)
      (request (.replace (temporaryOf name) name)).run
      (Triple.Ends (fun _ => OnBin fun bin => Changes sha256 name entry start bin ∧
          Verified sha256 entry (bin name))
        fun _ => OnBin (Changes sha256 name entry start)) := by
  have hrename : ∀ bin bin' : Bin, ChangesOnly (temporaryOf name) start bin →
      (∃ f, fileOf (bin (temporaryOf name)) = some f ∧ f.content = executable ∧
        f.readable = true) → bin.rename (temporaryOf name) name = some bin' →
      Changes sha256 name entry start bin' ∧ Verified sha256 entry (bin' name) := by
    rintro bin bin' honly ⟨f, hf, rfl, hreadable⟩ hrename
    obtain ⟨htarget, -, hothers⟩ := Bin.rename_spec hne hrename
    have hverified : Verified sha256 entry (bin' name) := by
      rw [htarget]
      exact ⟨f, hf, hreadable, hexecutable⟩
    exact ⟨⟨fun k hname htemporary => (hothers k htemporary hname).trans (honly k htemporary),
      .inr hverified⟩, hverified⟩
  have hinv : ∀ net bin, (ChangesOnly (temporaryOf name) start bin ∧
      ∃ f, fileOf (bin (temporaryOf name)) = some f ∧ f.content = executable ∧ f.readable = true) →
      Changes sha256 name entry start (reliable net (.replace (temporaryOf name) name) bin).2 := by
    rintro net bin ⟨honly, hfile⟩
    show Changes _ _ _ _ (attempt bin (if temporaryOf name = name then _ else _)).2
    rw [if_neg hne]
    cases hresult : bin.rename (temporaryOf name) name with
    | none => exact .of_changesOnly hne honly
    | some bin' => exact (hrename bin bin' honly hfile hresult).1
  refine triple_request _ ?_ hinv ?_
  · rintro net bin _ ⟨honly, hfile⟩ hok
    change (attempt bin (if temporaryOf name = name then _ else _)).1 = _ at hok
    show Changes _ _ _ _ (attempt bin (if temporaryOf name = name then _ else _)).2 ∧
      Verified _ _ ((attempt bin (if temporaryOf name = name then _ else _)).2 name)
    rw [if_neg hne] at hok ⊢
    cases hresult : bin.rename (temporaryOf name) name with
    | none =>
      rw [hresult] at hok
      cases hok
    | some bin' => exact hrename bin bin' honly hfile hresult
  · intro net b bin hpre
    unfold broken
    split_ifs
    · exact hinv net bin hpre
    · exact .of_changesOnly hne hpre.1

/-- Installing a tool leaves it as it was until it is the one that the lock describes. -/
theorem triple_installBinary (hne : temporaryOf name ≠ name) (start : Bin) :
    Triple world.handler (OnBin (Changes sha256 name entry start)) (OnBin (· = start))
      (installBinary sha256 tar name entry).run
      (Triple.Ends (fun _ => OnBin fun bin => Changes sha256 name entry start bin ∧
          Verified sha256 entry (bin name))
        fun _ => OnBin (Changes sha256 name entry start)) := by
  have hstart : ∀ s : Nat × Bin, OnBin (· = start) s → OnBin (Changes sha256 name entry start) s := by
    rintro ⟨n, bin⟩ rfl
    exact .refl
  have hbeside : ∀ s : Nat × Bin, OnBin (ChangesOnly (temporaryOf name) start) s →
      OnBin (Changes sha256 name entry start) s := fun s hs => .of_changesOnly hne hs
  refine ((triple_isInstalled name entry start).mono_inv hstart |>.monoE (fun _ h => h)
    (fun _ _ h => h) fun _ s h => hstart s h).bindE fun installed => ?_
  cases installed with
  | true =>
    refine Triple.pure ?_
    rintro ⟨n, bin⟩ ⟨rfl, hverified⟩
    exact ⟨.refl, hverified rfl⟩
  | false =>
    refine ((triple_computed (entry.field "url" >>= httpsUrl name)).monoE (fun s hs => hs.1)
      (fun _ _ h => h.1) fun _ s h => hstart s h).bindE fun url => ?_
    refine ((triple_look (c := .fetch url) trivial start).mono_inv hstart |>.monoE (fun _ h => h)
      (fun _ _ h => h.1) fun _ s h => hstart s h).bindE fun archive => ?_
    refine ((triple_computed (executableOf sha256 tar name entry archive)).monoE (fun _ h => h)
      (fun _ _ h => h) fun _ s h => hstart s h).bindE fun executable => ?_
    by_cases hok : executableOf sha256 tar name entry archive = .ok executable
    · have hexecutable := executableOf_ok hok
      refine ((triple_writeBytes name executable start).mono_inv hbeside |>.monoE (fun s hs => hs.1)
        (fun _ _ h => h) fun _ s h => hbeside s h).bindE fun _ => ?_
      refine ((triple_chmod name executable start).mono_inv hbeside |>.monoE (fun _ h => h)
        (fun _ _ h => h) fun _ s h => hbeside s h).bindE fun _ => ?_
      exact triple_replace hne hexecutable start
    · -- nothing else is computed
      exact fun s hs => absurd hs.2 hok

/-! ### Installing all of them -/

variable {lock : Dict Component Tool}

/-- Every tool is as it was, or the one that the lock describes; and nothing else has changed, but
where tools are written at first. -/
structure Safe (sha256 : Sha256) (lock : Dict Component Tool) (start bin : Bin) : Prop where
  destination : ∀ i ∈ lock.items, bin i.1 = start i.1 ∨ Verified sha256 i.2 (bin i.1)
  others : ∀ k, (∀ i ∈ lock.items, k ≠ i.1 ∧ k ≠ temporaryOf i.1) → bin k = start k

theorem Safe.refl : Safe sha256 lock start start := ⟨fun _ _ => .inl rfl, fun _ _ => rfl⟩

/-- Installing one more. -/
theorem Safe.of_changes (hseparate : Separate lock) {i : Component × Tool} (hi : i ∈ lock.items)
    {bin' : Bin} (h : Safe sha256 lock start bin) (hchanges : Changes sha256 i.1 i.2 bin bin') :
    Safe sha256 lock start bin' := by
  refine ⟨fun j hj => ?_, fun k hk => ?_⟩
  · by_cases hname : j.1 = i.1
    · obtain rfl : j = i := List.inj_on_of_nodup_map lock.nodup hj hi hname
      rcases hchanges.destination with hsame | hverified
      · rw [hsame]
        exact h.destination j hj
      · exact .inr hverified
    · rw [hchanges.others j.1 hname (hseparate i hi j hj).symm]
      exact h.destination j hj
  · rw [hchanges.others k (hk i hi).1 (hk i hi).2]
    exact h.others k hk

/-- What has been installed stays so while others are. -/
theorem verified_of_changes (hseparate : Separate lock) {i j : Component × Tool}
    (hi : i ∈ lock.items) (hj : j ∈ lock.items) {bin' : Bin}
    (h : Verified sha256 j.2 (bin j.1)) (hchanges : Changes sha256 i.1 i.2 bin bin') :
    Verified sha256 j.2 (bin' j.1) := by
  by_cases hname : j.1 = i.1
  · obtain rfl : j = i := List.inj_on_of_nodup_map lock.nodup hj hi hname
    rcases hchanges.destination with hsame | hverified
    · rw [hsame]
      exact h
    · exact hverified
  · rw [hchanges.others j.1 hname (hseparate i hi j hj).symm]
    exact h

theorem triple_installAll (hseparate : Separate lock) (start : Bin) :
    Triple world.handler (OnBin (Safe sha256 lock start)) (OnBin (Safe sha256 lock start))
      (installAll sha256 tar lock).run
      (Triple.Ends (fun _ => OnBin fun bin => Safe sha256 lock start bin ∧
          ∀ i ∈ lock.items, Verified sha256 i.2 (bin i.1))
        fun _ => OnBin (Safe sha256 lock start)) := by
  let I (done : List (Component × Tool)) (s : Nat × Bin) : Prop :=
    Safe sha256 lock start s.2 ∧ ∀ i ∈ done, Verified sha256 i.2 (s.2 i.1)
  have hloop : Triple world.handler (OnBin (Safe sha256 lock start)) (I [])
      (lock.items.forM fun i => installBinary sha256 tar i.1 i.2).run
      (Triple.Ends (fun _ => I lock.items) fun _ => OnBin (Safe sha256 lock start)) := by
    refine Triple.forM lock.items fun done i hdone s ⟨hsafe, hverified⟩ => ?_
    have hi : i ∈ lock.items := hdone.subset (by simp)
    have hdone' : ∀ j ∈ done, j ∈ lock.items := fun j hj => hdone.subset (by simp [hj])
    have hone : Triple world.handler (OnBin (Changes sha256 i.1 i.2 s.2)) (OnBin (· = s.2))
        (installBinary sha256 tar i.1 i.2).run _ := triple_installBinary (hseparate i hi i hi) s.2
    obtain ⟨hvisited, hends⟩ := hone s rfl
    refine ⟨fun s' hs' => hsafe.of_changes hseparate hi (hvisited s' hs'), ?_⟩
    cases hresult : ((installBinary sha256 tar i.1 i.2).run.run world.handler s).1 with
    | error e =>
      rw [hresult] at hends
      exact hsafe.of_changes hseparate hi hends
    | ok _ =>
      rw [hresult] at hends
      refine ⟨hsafe.of_changes hseparate hi hends.1, fun j hj => ?_⟩
      rcases List.mem_append.mp hj with hj | hj
      · exact verified_of_changes hseparate hi (hdone' j hj) (hverified j hj) hends.1
      · obtain rfl := List.mem_singleton.mp hj
        exact hends.2
  exact hloop.monoE (fun s hs => ⟨hs, fun i hi => absurd hi List.not_mem_nil⟩) (fun _ _ h => h)
    fun _ _ h => h

/-! ### What is asked for -/

def shfmt : Component := ⟨lit "shfmt", by decide⟩

/-- A lock of one tool, which is a file of one character. -/
def shfmtLock : Dict Component Tool :=
  let digest := .string (lit "ca978112ca1bbdcafac231b39a23dc4da786eff8147c4e72b9807785afee48bb")
  { items := [(shfmt, .ofList [(lit "url", .string (lit "https://tools/shfmt")),
      (lit "sha256", digest), (lit "member", .null), (lit "binary_sha256", digest)])]
    nodup := by decide }

/-- Archives are not read. -/
def noArchive : Tar := fun _ _ => .error .raised

/-- The tool is served, and nothing breaks. -/
def calm : World where
  net _ url := if url = lit "https://tools/shfmt" then .ok [0x61] else .error .raised
  breaks _ := none

end StyleTools
