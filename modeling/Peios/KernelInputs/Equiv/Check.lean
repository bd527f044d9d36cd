import Mathlib.Data.List.ReduceOption
import Peios.KernelInputs.Equiv.Export

/-!
# What is accepted

`Matches` says that the part of a directory that is seen is as its `ORIGIN.json` says.
`checkSnapshot` accepts where what a recursive listing shows matches, and everything it shows can be
reached and read (`checkSnapshot_eq_ok`).  A listing passes over directories that cannot be listed,
so this is not all of the directory: `accepts_iff` says where the two agree.
-/

namespace KernelInputs

open Python FileTree Interaction Interaction.Prog

/-- The part of a directory that is seen is as its `ORIGIN.json` says: there are only files and
directories, the files other than `ORIGIN.json` are those that are listed, their contents are the
listed ones and so are their modes, and each root has a file. -/
structure Matches (tree : FileTree Component) (data : Origin) (modes : Dict Str Str)
    (sees : Path → Prop) (lists : Str → List UInt8 → Prop) : Prop where
  plain : ∀ p n, sees p → tree.node? p = some n → (∃ f, n = .file f) ∨ ∃ a, n = .directory a
  files : ∀ name, name ∈ data.files.keys ↔
    ∃ p f, sees p ∧ p ≠ [ORIGIN_JSON] ∧ posix p = name ∧ tree.node? p = some (.file f)
  contents : ∀ p f, sees p → p ≠ [ORIGIN_JSON] → tree.node? p = some (.file f) →
    lists (posix p) f.content
  modes : ∀ p f, sees p → p ≠ [ORIGIN_JSON] → tree.node? p = some (.file f) →
    (isExecutable f = true ↔ modes.get? (posix p) = some (lit "100755"))
  roots : ∀ root ∈ data.paths, ∃ name ∈ data.files.keys, Within root name

/-- What a listing shows can be named, and the files among it can be read. -/
structure Accessible (tree : FileTree Component) : Prop where
  reachable : ∀ p n, p ≠ [] → tree.Visible p → tree.node? p = some n → tree.Reachable p
  readable : ∀ p f, p ≠ [ORIGIN_JSON] → tree.Visible p → tree.node? p = some (.file f) →
    f.readable = true

/-- A listing shows everything that is not a directory. -/
def NothingHidden (tree : FileTree Component) : Prop :=
  ∀ p n, tree.node? p = some n → (∀ a, n ≠ .directory a) → tree.Visible p

variable {snapshot : Snapshot} {sha256 : Sha256} {data : Origin} {modes : Dict Str Str}
  {allowLegacy : Bool}

/-! ### One path, one file -/

theorem node?_file_ne_nil {tree : FileTree Component} {p : Path} {f : File}
    (h : tree.node? p = some (.file f)) : p ≠ [] := by
  rintro rfl
  obtain ⟨a, ha⟩ := tree.root
  cases h.symm.trans ha

theorem inputName_eq_ok {p : Path} {n : Node} {name : Option Str} :
    inputName snapshot false (p, n) = .ok name ↔ snapshot.tree.Reachable p ∧
      ((∃ a, n = .directory a ∧ name = none) ∨
        ∃ f, n = .file f ∧ name = if p = [ORIGIN_JSON] then none else some (posix p)) := by
  simp only [inputName, throw_eq, error_bind, ite_throw_eq_ok, not_not]
  apply and_congr_right
  intro _
  cases n with
  | file f => simp [Python.pure_eq, eq_comm]
  | directory a => simp [Python.pure_eq, eq_comm]
  | symlink target =>
    cases target with
    | none => simp
    | some f => simp
  | special => simp

theorem liftOs_eq_ok {α : Type} {x : Except OsError α} {a : α} : liftOs x = .ok a ↔ x = .ok a := by
  cases x with
  | error e => simp [liftOs, Except.mapError]
  | ok b => simp [liftOs, Except.mapError]

theorem checkFile_eq_ok {p : Path} {f : File} {digest : Str} (hp : p ≠ [])
    (hmodes : data.modes = .listed modes) (hfile : snapshot.tree.node? p = some (.file f)) :
    checkFile sha256 snapshot data false (posix p, digest) = .ok () ↔
      snapshot.tree.Reachable p ∧ f.readable = true ∧ sha256.hexdigest f.content = digest ∧
        ∀ mode, modes.get? (posix p) = some mode →
          isExecutable f = decide (mode = lit "100755") := by
  -- what comes after the file has been opened
  have hrest : (checkFile sha256 snapshot data false (posix p, digest) = .ok ()) ↔
      ∃ f', snapshot.tree.openFile p = .ok f' ∧ sha256.hexdigest f'.content = digest ∧
        ∀ mode, modes.get? (posix p) = some mode →
          isExecutable f' = decide (mode = lit "100755") := by
    simp only [checkFile, Origin.expectedMode, hmodes, relative?_posix hp, throw_eq, error_bind,
      ite_throw_eq_ok, bind_eq_ok, orRaise_eq_ok, liftOs_eq_ok, Option.some.injEq, Python.pure_eq,
      Except.ok.injEq, exists_eq_left', not_not, ne_eq]
    apply exists_congr
    intro f'
    apply and_congr_right
    intro _
    apply and_congr_right
    intro _
    cases modes.get? (posix p) with
    | none => simp
    | some mode => simp
  rw [hrest]
  simp only [openFile_of_node? hfile]
  constructor
  · rintro ⟨_, ⟨rfl, hreach, hread⟩, hdigest, hmode⟩
    exact ⟨hreach, hread, hdigest, hmode⟩
  · rintro ⟨hreach, hread, hdigest, hmode⟩
    exact ⟨f, ⟨rfl, hreach, hread⟩, hdigest, hmode⟩

/-! ### The whole of it -/

/-- What is left of `checkSnapshot` once `ORIGIN.json` has been read. -/
theorem checkSnapshot_steps (hload : loadOrigin snapshot allowLegacy false = .ok data) :
    (∃ origin, checkSnapshot sha256 snapshot allowLegacy false = .ok origin) ↔
      ∃ names, snapshot.tree.listing.mapM (inputName snapshot false) = .ok names ∧
        (∀ name, name ∈ data.files.keys ↔ some name ∈ names) ∧
        (∀ i ∈ data.files.items, checkFile sha256 snapshot data false i = .ok ()) ∧
        ∀ root ∈ data.paths, ∃ name ∈ data.files.keys, Within root name := by
  have hroots : ∀ root, (if ∃ name ∈ data.files.keys, Within root name then
      (pure () : Except PyError Unit) else throw (.snapshot (.snapshotMissing root))) = .ok () ↔
      ∃ name ∈ data.files.keys, Within root name := by
    intro root
    split_ifs with h
    · simp [h, Python.pure_eq]
    · simp [h]
  have hset : ∀ names : List (Option Str), (names.reduceOption ⊆ data.files.keys ∧
      data.files.keys ⊆ names.reduceOption) ↔
        ∀ name, name ∈ data.files.keys ↔ some name ∈ names := by
    intro names
    simp only [List.subset_def, List.reduceOption_mem_iff]
    constructor
    · exact fun h name => ⟨fun hname => h.2 hname, fun hname => h.1 hname⟩
    · exact fun h => ⟨(h _).mpr, (h _).mp⟩
  simp only [checkSnapshot, hload, ok_bind, throw_eq, error_bind, bind_eq_ok, ite_throw_eq_ok,
    not_not, hset, Python.pure_eq, List.forM_eq_forM]
  constructor
  · rintro ⟨origin, names, hnames, hfiles, ⟨⟩, hchecks, ⟨⟩, hpaths, -⟩
    refine ⟨names, hnames, hfiles, forM_eq_ok.mp hchecks, fun root hroot => ?_⟩
    exact (hroots root).mp (forM_eq_ok.mp hpaths root hroot)
  · rintro ⟨names, hnames, hfiles, hchecks, hpaths⟩
    refine ⟨data, names, hnames, hfiles, (), forM_eq_ok.mpr hchecks, (), ?_, rfl⟩
    exact forM_eq_ok.mpr fun root hroot => (hroots root).mpr (hpaths root hroot)

/-- What is returned is what has been read. -/
theorem loadOrigin_of_checkSnapshot {bazelInputs : Bool}
    (h : checkSnapshot sha256 snapshot allowLegacy bazelInputs = .ok data) :
    loadOrigin snapshot allowLegacy bazelInputs = .ok data := by
  simp only [checkSnapshot, throw_eq, error_bind, bind_eq_ok, ite_throw_eq_ok, Python.pure_eq,
    Except.ok.injEq] at h
  obtain ⟨data', hload, names, -, -, _, -, _, -, rfl⟩ := h
  exact hload

/-- The names that a listing adds to the set of files. -/
theorem some_mem_names {names : List (Option Str)} {name : Str}
    (h : snapshot.tree.listing.mapM (inputName snapshot false) = .ok names) :
    some name ∈ names ↔ ∃ p f, snapshot.tree.Visible p ∧ p ≠ [ORIGIN_JSON] ∧ posix p = name ∧
      snapshot.tree.node? p = some (.file f) := by
  rw [mem_of_mapM_eq_ok h]
  constructor
  · rintro ⟨⟨p, n⟩, hmem, hname⟩
    obtain ⟨hnode, -, hvisible⟩ := mem_listing.mp hmem
    rcases (inputName_eq_ok.mp hname).2 with ⟨a, -, hnone⟩ | ⟨f, rfl, hsome⟩
    · cases hnone
    · split_ifs at hsome with horigin
      exact ⟨p, f, hvisible, horigin, (Option.some.inj hsome).symm, hnode⟩
  · rintro ⟨p, f, hvisible, horigin, rfl, hnode⟩
    have hmem := mem_listing.mpr ⟨hnode, node?_file_ne_nil hnode, hvisible⟩
    obtain ⟨name, hname⟩ := exists_of_mapM_eq_ok h hmem
    refine ⟨_, hmem, inputName_eq_ok.mpr ⟨(inputName_eq_ok.mp hname).1, .inr ⟨f, rfl, ?_⟩⟩⟩
    rw [if_neg horigin]

/-- What the checks have found of a file that a listing shows. -/
theorem checked_of_visible {names : List (Option Str)} (hmodes : data.modes = .listed modes)
    (hnames : snapshot.tree.listing.mapM (inputName snapshot false) = .ok names)
    (hfiles : ∀ name, name ∈ data.files.keys ↔ some name ∈ names)
    (hchecks : ∀ i ∈ data.files.items, checkFile sha256 snapshot data false i = .ok ()) {p : Path}
    {f : File} (hvisible : snapshot.tree.Visible p) (horigin : p ≠ [ORIGIN_JSON])
    (hnode : snapshot.tree.node? p = some (.file f)) :
    ∃ digest, data.files.get? (posix p) = some digest ∧ f.readable = true ∧
      sha256.hexdigest f.content = digest ∧
      ∀ mode, modes.get? (posix p) = some mode →
        isExecutable f = decide (mode = lit "100755") := by
  have hkey : posix p ∈ data.files.keys := by
    rw [hfiles, some_mem_names hnames]
    exact ⟨p, f, hvisible, horigin, rfl, hnode⟩
  obtain ⟨digest, hdigest⟩ := Dict.mem_keys.mp hkey
  have hcheck := hchecks _ (Dict.get?_eq_some.mp hdigest)
  exact ⟨digest, hdigest, ((checkFile_eq_ok (node?_file_ne_nil hnode) hmodes hnode).mp hcheck).2⟩

/-- Where all checks pass, what a listing shows matches, and can be reached and read. -/
theorem matches_of_checks {names : List (Option Str)} (hvalid : data.Valid)
    (hmodes : data.modes = .listed modes)
    (hnames : snapshot.tree.listing.mapM (inputName snapshot false) = .ok names)
    (hfiles : ∀ name, name ∈ data.files.keys ↔ some name ∈ names)
    (hchecks : ∀ i ∈ data.files.items, checkFile sha256 snapshot data false i = .ok ())
    (hroots : ∀ root ∈ data.paths, ∃ name ∈ data.files.keys, Within root name) :
    Matches snapshot.tree data modes snapshot.tree.Visible
      (fun name b => data.files.get? name = some (sha256.hexdigest b)) ∧
    Accessible snapshot.tree := by
  -- each path that is shown has been looked at, and each file been checked
  have hseen : ∀ p n, p ≠ [] → snapshot.tree.Visible p → snapshot.tree.node? p = some n →
      ∃ name, inputName snapshot false (p, n) = .ok name := fun p n hp hvisible hnode =>
    exists_of_mapM_eq_ok hnames (mem_listing.mpr ⟨hnode, hp, hvisible⟩)
  refine ⟨⟨?_, ?_, ?_, ?_, hroots⟩, ⟨?_, ?_⟩⟩
  · intro p n hvisible hnode
    by_cases hp : p = []
    · obtain ⟨a, ha⟩ := snapshot.tree.root
      rw [hp] at hnode
      exact .inr ⟨a, Option.some.inj (hnode.symm.trans ha)⟩
    · obtain ⟨name, hname⟩ := hseen p n hp hvisible hnode
      rcases (inputName_eq_ok.mp hname).2 with ⟨a, ha, -⟩ | ⟨f, hf, -⟩
      · exact .inr ⟨a, ha⟩
      · exact .inl ⟨f, hf⟩
  · intro name
    rw [hfiles, some_mem_names hnames]
  · intro p f hvisible horigin hnode
    obtain ⟨digest, hdigest, -, rfl, -⟩ :=
      checked_of_visible hmodes hnames hfiles hchecks hvisible horigin hnode
    exact hdigest
  · intro p f hvisible horigin hnode
    obtain ⟨digest, hdigest, -, -, hmode⟩ :=
      checked_of_visible hmodes hnames hfiles hchecks hvisible horigin hnode
    obtain ⟨mode, hget⟩ := Dict.mem_keys.mp
      (((hvalid.modes modes hmodes).1 (posix p)).mpr (Dict.mem_keys.mpr ⟨digest, hdigest⟩))
    rw [hmode mode hget, hget, decide_eq_true_eq, Option.some.injEq]
  · intro p n hp hvisible hnode
    obtain ⟨name, hname⟩ := hseen p n hp hvisible hnode
    exact (inputName_eq_ok.mp hname).1
  · intro p f horigin hvisible hnode
    obtain ⟨digest, -, hread, -⟩ :=
      checked_of_visible hmodes hnames hfiles hchecks hvisible horigin hnode
    exact hread

/-- A listing of what matches raises nothing. -/
theorem exists_names_of_matches {lists : Str → List UInt8 → Prop}
    (hmatches : Matches snapshot.tree data modes snapshot.tree.Visible lists)
    (haccess : Accessible snapshot.tree) :
    ∃ names, snapshot.tree.listing.mapM (inputName snapshot false) = .ok names := by
  apply exists_mapM_eq_ok
  rintro ⟨p, n⟩ hmem
  obtain ⟨hnode, hp, hvisible⟩ := mem_listing.mp hmem
  have hreach := haccess.reachable p n hp hvisible hnode
  rcases hmatches.plain p n hvisible hnode with ⟨f, rfl⟩ | ⟨a, rfl⟩
  · exact ⟨_, inputName_eq_ok.mpr ⟨hreach, .inr ⟨f, rfl, rfl⟩⟩⟩
  · exact ⟨_, inputName_eq_ok.mpr ⟨hreach, .inl ⟨a, rfl, rfl⟩⟩⟩

/-- Nor does the check of a file. -/
theorem checkFile_of_matches (hmodes : data.modes = .listed modes)
    (hmatches : Matches snapshot.tree data modes snapshot.tree.Visible
      (fun name b => data.files.get? name = some (sha256.hexdigest b)))
    (haccess : Accessible snapshot.tree) {i : Str × Str} (hi : i ∈ data.files.items) :
    checkFile sha256 snapshot data false i = .ok () := by
  obtain ⟨name, digest⟩ := i
  obtain ⟨p, f, hvisible, horigin, rfl, hnode⟩ := (hmatches.files name).mp
    (List.mem_map.mpr ⟨_, hi, rfl⟩)
  have hp := node?_file_ne_nil hnode
  rw [checkFile_eq_ok hp hmodes hnode]
  have hdigest := hmatches.contents p f hvisible horigin hnode
  rw [Dict.get?_eq_some.mpr hi, Option.some.injEq] at hdigest
  refine ⟨haccess.reachable p _ hp hvisible hnode, haccess.readable p f horigin hvisible hnode,
    hdigest.symm, fun mode hget => ?_⟩
  have hmode := hmatches.modes p f hvisible horigin hnode
  rw [hget, Option.some.injEq] at hmode
  by_cases heq : mode = lit "100755"
  · rw [hmode.mpr heq, decide_eq_true heq]
  · rw [decide_eq_false heq]
    exact Bool.eq_false_iff.mpr fun h => heq (hmode.mp h)

/-- A snapshot is accepted where what a listing shows is as `ORIGIN.json` says, and can be reached
and read. -/
theorem checkSnapshot_eq_ok (hload : loadOrigin snapshot allowLegacy false = .ok data)
    (hmodes : data.modes = .listed modes) :
    (∃ origin, checkSnapshot sha256 snapshot allowLegacy false = .ok origin) ↔
      Matches snapshot.tree data modes snapshot.tree.Visible
        (fun name b => data.files.get? name = some (sha256.hexdigest b)) ∧
      Accessible snapshot.tree := by
  rw [checkSnapshot_steps hload]
  constructor
  · rintro ⟨names, hnames, hfiles, hchecks, hroots⟩
    exact matches_of_checks (valid_of_loadOrigin hload) hmodes hnames hfiles hchecks hroots
  · rintro ⟨hmatches, haccess⟩
    obtain ⟨names, hnames⟩ := exists_names_of_matches hmatches haccess
    refine ⟨names, hnames, fun name => ?_, fun i => checkFile_of_matches hmodes hmatches haccess,
      hmatches.roots⟩
    rw [hmatches.files, some_mem_names hnames]

/-! ### What is hidden -/

/-- What the listed digests stand for: no file there is has the digest of other contents. -/
structure Identifies (sha256 : Sha256) (data : Origin) (tree : FileTree Component)
    (contents : Str → Option (List UInt8)) : Prop where
  listed : ∀ name b, contents name = some b → data.files.get? name = some (sha256.hexdigest b)
  noCollision : ∀ p f, tree.node? p = some (.file f) →
    data.files.get? (posix p) = some (sha256.hexdigest f.content) →
    contents (posix p) = some f.content

variable {tree : FileTree Component} {sees : Path → Prop} {contents : Str → Option (List UInt8)}

/-- Without collisions, the digests match where the contents do. -/
theorem matches_digests_iff (h : Identifies sha256 data tree contents) :
    Matches tree data modes sees (fun name b => data.files.get? name = some (sha256.hexdigest b)) ↔
      Matches tree data modes sees fun name b => contents name = some b := by
  constructor
  · intro hmatches
    exact { hmatches with
      contents := fun p f hsees horigin hnode =>
        h.noCollision p f hnode (hmatches.contents p f hsees horigin hnode) }
  · intro hmatches
    exact { hmatches with
      contents := fun p f hsees horigin hnode =>
        h.listed _ _ (hmatches.contents p f hsees horigin hnode) }

variable {lists : Str → List UInt8 → Prop}

/-- Where nothing is hidden, what a listing shows is all there is to match. -/
theorem matches_visible_iff (h : NothingHidden tree) :
    Matches tree data modes tree.Visible lists ↔ Matches tree data modes (fun _ => True) lists := by
  have hfile : ∀ p f, tree.node? p = some (.file f) → tree.Visible p := fun p f hnode =>
    h p _ hnode fun a => by simp
  constructor
  · intro hmatches
    refine ⟨fun p n _ hnode => ?_, fun name => ?_, fun p f _ horigin hnode => ?_,
      fun p f _ horigin hnode => ?_, hmatches.roots⟩
    · by_cases hdir : ∃ a, n = .directory a
      · exact .inr hdir
      · exact hmatches.plain p n (h p n hnode (not_exists.mp hdir)) hnode
    · rw [hmatches.files]
      constructor
      · rintro ⟨p, f, -, hrest⟩
        exact ⟨p, f, trivial, hrest⟩
      · rintro ⟨p, f, -, horigin, hname, hnode⟩
        exact ⟨p, f, hfile p f hnode, horigin, hname, hnode⟩
    · exact hmatches.contents p f (hfile p f hnode) horigin hnode
    · exact hmatches.modes p f (hfile p f hnode) horigin hnode
  · intro hmatches
    refine ⟨fun p n _ hnode => hmatches.plain p n trivial hnode, fun name => ?_,
      fun p f _ horigin hnode => hmatches.contents p f trivial horigin hnode,
      fun p f _ horigin hnode => hmatches.modes p f trivial horigin hnode, hmatches.roots⟩
    rw [hmatches.files]
    constructor
    · rintro ⟨p, f, -, horigin, hname, hnode⟩
      exact ⟨p, f, hfile p f hnode, horigin, hname, hnode⟩
    · rintro ⟨p, f, -, hrest⟩
      exact ⟨p, f, trivial, hrest⟩

/-- Nothing is hidden where both all there is and what a listing shows match. -/
theorem nothingHidden_of_matches (hne : data.files.keys ≠ [])
    (hvisible : Matches tree data modes tree.Visible lists)
    (hall : Matches tree data modes (fun _ => True) lists) : NothingHidden tree := by
  -- the root can be listed, since a listing shows some file
  have hroot : tree.listable [] = true := by
    obtain ⟨name, hname⟩ := List.exists_mem_of_ne_nil _ hne
    obtain ⟨p, f, hp, -, -, hnode⟩ := (hvisible.files name).mp hname
    exact hp.1 [] (mem_ancestors.mpr ⟨List.nil_prefix, (node?_file_ne_nil hnode).symm⟩)
  intro p n hnode hdir
  obtain ⟨f, rfl⟩ : ∃ f, n = .file f := by
    rcases hall.plain p n trivial hnode with hfile | ⟨a, ha⟩
    · exact hfile
    · exact absurd ha (hdir a)
  by_cases horigin : p = [ORIGIN_JSON]
  · rw [horigin]
    exact visible_singleton.mpr hroot
  · have hname := (hall.files (posix p)).mpr ⟨p, f, trivial, horigin, rfl, hnode⟩
    obtain ⟨p', f', hp', -, heq, hnode'⟩ := (hvisible.files _).mp hname
    obtain rfl := posix_injective (node?_file_ne_nil hnode') (node?_file_ne_nil hnode) heq
    exact hp'

/-- The checker agrees with the directory as a whole exactly where nothing is hidden, and everything
can be reached and read, once all of it or what is seen of it matches. -/
theorem accepts_iff (hload : loadOrigin snapshot allowLegacy false = .ok data)
    (hmodes : data.modes = .listed modes)
    (hidentifies : Identifies sha256 data snapshot.tree contents) :
    ((∃ origin, checkSnapshot sha256 snapshot allowLegacy false = .ok origin) ↔
      Matches snapshot.tree data modes (fun _ => True) fun name b => contents name = some b) ↔
    ((Matches snapshot.tree data modes snapshot.tree.Visible
        (fun name b => contents name = some b) →
        Accessible snapshot.tree → NothingHidden snapshot.tree) ∧
      (Matches snapshot.tree data modes (fun _ => True) (fun name b => contents name = some b) →
        NothingHidden snapshot.tree ∧ Accessible snapshot.tree)) := by
  rw [checkSnapshot_eq_ok hload hmodes, matches_digests_iff hidentifies]
  have hne := (valid_of_loadOrigin hload).nonempty
  constructor
  · intro hagrees
    constructor
    · intro hvisible haccess
      exact nothingHidden_of_matches hne hvisible (hagrees.mp ⟨hvisible, haccess⟩)
    · intro hall
      obtain ⟨hvisible, haccess⟩ := hagrees.mpr hall
      exact ⟨nothingHidden_of_matches hne hvisible hall, haccess⟩
  · rintro ⟨hseen, hwhole⟩
    constructor
    · rintro ⟨hvisible, haccess⟩
      exact (matches_visible_iff (hseen hvisible haccess)).mp hvisible
    · intro hall
      obtain ⟨hhidden, haccess⟩ := hwhole hall
      exact ⟨(matches_visible_iff hhidden).mpr hall, haccess⟩

end KernelInputs
