import Peios.KernelInputs.Equiv.Check

/-!
# Inputs that Bazel delivers

Bazel delivers a snapshot as links, and without the modes of its files.  `checkSnapshot_delivered`
says that `checkSnapshot` judges such inputs as it does the files that they lead to, and
`checkSnapshot_strict_iff` what it leaves out for them: whether anything is a link, and the modes.
-/

namespace KernelInputs

open Python FileTree

variable {snapshot : Snapshot} {sha256 : Sha256} {data : Origin} {allowLegacy : Bool}

/-- The snapshot that links lead to. -/
def Snapshot.delivered (snapshot : Snapshot) : Snapshot :=
  { isSymlink := false, tree := snapshot.tree.followed }

/-! ### Links are followed -/

theorem isFile_followed (o : Option Node) : isFile (o.map Node.followed) = isFile o := by
  cases o with
  | none => rfl
  | some n =>
    cases n with
    | symlink target => cases target <;> rfl
    | file f => rfl
    | directory a => rfl
    | special => rfl

theorem loadOrigin_delivered :
    loadOrigin snapshot.delivered allowLegacy true = loadOrigin snapshot allowLegacy true := by
  unfold loadOrigin Snapshot.delivered
  simp only [reachable_followed, node?_followed, openFile_followed, isFile_followed,
    not_true_eq_false, false_and, false_or, if_false]

theorem inputName_delivered (i : Path × Node) :
    inputName snapshot.delivered true (i.1, i.2.followed) = inputName snapshot true i := by
  obtain ⟨p, n⟩ := i
  unfold inputName Snapshot.delivered
  simp only [reachable_followed]
  cases n with
  | symlink target => cases target <;> rfl
  | file f => rfl
  | directory a => rfl
  | special => rfl

theorem mapM_inputName_delivered :
    snapshot.delivered.tree.listing.mapM (inputName snapshot.delivered true)
      = snapshot.tree.listing.mapM (inputName snapshot true) := by
  have hlisting : snapshot.delivered.tree.listing
      = snapshot.tree.listing.map fun i => (i.1, i.2.followed) := listing_followed
  rw [hlisting, List.mapM_map]
  exact congrArg (List.mapM · _) (funext inputName_delivered)

theorem checkFile_delivered :
    checkFile sha256 snapshot.delivered data true = checkFile sha256 snapshot data true := by
  funext i
  unfold checkFile Snapshot.delivered
  simp only [openFile_followed]

/-- Inputs that Bazel delivers are accepted or refused, with the same words, as the files that they
lead to. -/
theorem checkSnapshot_delivered (sha256 : Sha256) (snapshot : Snapshot) (allowLegacy : Bool) :
    checkSnapshot sha256 snapshot.delivered allowLegacy true
      = checkSnapshot sha256 snapshot allowLegacy true := by
  unfold checkSnapshot
  rw [loadOrigin_delivered, mapM_inputName_delivered]
  simp only [checkFile_delivered]

/-! ### What is left out -/

/-- Nothing that is looked at is a link to a file, and the snapshot is none to a directory. -/
structure Snapshot.Real (snapshot : Snapshot) : Prop where
  root : snapshot.isSymlink = false
  origin : KernelInputs.isSymlink (snapshot.tree.node? [ORIGIN_JSON]) = false
  inputs : ∀ i ∈ snapshot.tree.listing, ∀ f, i.2 ≠ .symlink (some f)

/-- The file with this name is executable if and only if Git says so. -/
def KeepsMode (snapshot : Snapshot) (data : Origin) (name : Str) : Prop :=
  ∀ path file mode, relative? name = some path → snapshot.tree.openFile path = .ok file →
    data.expectedMode name = .ok (some mode) →
    isExecutable file = decide (mode = lit "100755")

theorem loadOrigin_strict_iff :
    loadOrigin snapshot allowLegacy false = .ok data ↔
      loadOrigin snapshot allowLegacy true = .ok data ∧ snapshot.isSymlink = false ∧
        isSymlink (snapshot.tree.node? [ORIGIN_JSON]) = false := by
  simp only [loadOrigin, throw_eq, error_bind, ite_throw_eq_ok, bind_eq_ok, Bool.false_eq_true,
    not_false_eq_true, true_and, not_true_eq_false, false_and, false_or, not_or,
    Bool.not_eq_true, Bool.not_eq_false]
  tauto

theorem inputName_strict_iff {i : Path × Node} {name : Option Str} :
    inputName snapshot false i = .ok name ↔
      inputName snapshot true i = .ok name ∧ ∀ f, i.2 ≠ .symlink (some f) := by
  obtain ⟨p, n⟩ := i
  simp only [inputName, throw_eq, error_bind, ite_throw_eq_ok, and_assoc]
  apply and_congr_right
  intro _
  cases n with
  | symlink target => cases target <;> simp
  | file f => simp
  | directory a => simp
  | special => simp

theorem checkFile_strict_iff {i : Str × Str} :
    checkFile sha256 snapshot data false i = .ok () ↔
      checkFile sha256 snapshot data true i = .ok () ∧ KeepsMode snapshot data i.1 := by
  simp only [checkFile, throw_eq, error_bind, ite_throw_eq_ok, bind_eq_ok, orRaise_eq_ok,
    liftOs_eq_ok, Bool.false_eq_true, not_false_eq_true, true_and, not_true_eq_false, false_and]
  constructor
  · rintro ⟨path, hpath, file, hfile, hdigest, mode, hmode, hrest⟩
    refine ⟨⟨path, hpath, file, hfile, hdigest, mode, hmode, ?_⟩, ?_⟩
    · cases mode <;> rfl
    · intro path' file' mode' hpath' hfile' hmode'
      obtain rfl := Option.some.inj (hpath.symm.trans hpath')
      obtain rfl := Except.ok.inj (hfile.symm.trans hfile')
      obtain rfl := Except.ok.inj (hmode.symm.trans hmode')
      exact not_not.mp (ite_throw_eq_ok.mp hrest).1
  · rintro ⟨⟨path, hpath, file, hfile, hdigest, mode, hmode, -⟩, hkeeps⟩
    refine ⟨path, hpath, file, hfile, hdigest, mode, hmode, ?_⟩
    cases mode with
    | none => rfl
    | some mode =>
      exact ite_throw_eq_ok.mpr ⟨not_not.mpr (hkeeps path file mode hpath hfile hmode), rfl⟩

/-- The checks that accepting a snapshot takes. -/
theorem checkSnapshot_eq_ok_iff {bazelInputs : Bool} :
    checkSnapshot sha256 snapshot allowLegacy bazelInputs = .ok data ↔
      loadOrigin snapshot allowLegacy bazelInputs = .ok data ∧
        ∃ names, snapshot.tree.listing.mapM (inputName snapshot bazelInputs) = .ok names ∧
          (names.reduceOption ⊆ data.files.keys ∧ data.files.keys ⊆ names.reduceOption) ∧
          (∀ i ∈ data.files.items, checkFile sha256 snapshot data bazelInputs i = .ok ()) ∧
          ∀ root ∈ data.paths, (if ∃ name ∈ data.files.keys, Within root name then pure ()
            else throw (.snapshot (.snapshotMissing root)) : Except PyError Unit) = .ok () := by
  simp only [checkSnapshot, throw_eq, error_bind, bind_eq_ok, ite_throw_eq_ok, not_not,
    Python.pure_eq, List.forM_eq_forM, Except.ok.injEq]
  constructor
  · rintro ⟨data', hload, names, hnames, hset, _, hchecks, _, hroots, rfl⟩
    exact ⟨hload, names, hnames, hset, forM_eq_ok.mp hchecks, forM_eq_ok.mp hroots⟩
  · rintro ⟨hload, names, hnames, hset, hchecks, hroots⟩
    exact ⟨data, hload, names, hnames, hset, (), forM_eq_ok.mpr hchecks, (),
      forM_eq_ok.mpr hroots, rfl⟩

theorem mapM_inputName_strict_iff {names : List (Option Str)} :
    snapshot.tree.listing.mapM (inputName snapshot false) = .ok names ↔
      snapshot.tree.listing.mapM (inputName snapshot true) = .ok names ∧
        ∀ i ∈ snapshot.tree.listing, ∀ f, i.2 ≠ .symlink (some f) := by
  constructor
  · intro h
    have hplain : ∀ i ∈ snapshot.tree.listing, inputName snapshot true i
        = inputName snapshot false i ∧ ∀ f, i.2 ≠ .symlink (some f) := by
      intro i hi
      obtain ⟨name, hname⟩ := exists_of_mapM_eq_ok h hi
      obtain ⟨htrue, hlink⟩ := inputName_strict_iff.mp hname
      exact ⟨htrue.trans hname.symm, hlink⟩
    refine ⟨?_, fun i hi => (hplain i hi).2⟩
    rw [Python.mapM_eq_ok] at h ⊢
    rw [← h]
    exact List.map_congr_left fun i hi => (hplain i hi).1
  · rintro ⟨h, hlinks⟩
    rw [Python.mapM_eq_ok] at h ⊢
    rw [← h]
    apply List.map_congr_left
    intro i hi
    obtain ⟨name, hname⟩ := exists_of_mapM_eq_ok (Python.mapM_eq_ok.mpr h) hi
    rw [hname]
    exact inputName_strict_iff.mpr ⟨hname, hlinks i hi⟩

/-- A snapshot is accepted as the checkout that it is if and only if it would be accepted from
Bazel, nothing in it is a link, and every file has the mode that Git has recorded. -/
theorem checkSnapshot_strict_iff (sha256 : Sha256) (snapshot : Snapshot) (allowLegacy : Bool)
    (data : Origin) :
    checkSnapshot sha256 snapshot allowLegacy false = .ok data ↔
      checkSnapshot sha256 snapshot allowLegacy true = .ok data ∧ snapshot.Real ∧
        ∀ name ∈ data.files.keys, KeepsMode snapshot data name := by
  have hmodes : (∀ name ∈ data.files.keys, KeepsMode snapshot data name) ↔
      ∀ i ∈ data.files.items, KeepsMode snapshot data i.1 := by
    unfold Dict.keys
    rw [List.forall_mem_map]
  rw [checkSnapshot_eq_ok_iff, checkSnapshot_eq_ok_iff, loadOrigin_strict_iff, hmodes]
  simp only [mapM_inputName_strict_iff, checkFile_strict_iff]
  constructor
  · rintro ⟨⟨hload, hroot, horigin⟩, names, ⟨hnames, hlinks⟩, hset, hchecks, hroots⟩
    exact ⟨⟨hload, names, hnames, hset, fun i hi => (hchecks i hi).1, hroots⟩,
      ⟨hroot, horigin, hlinks⟩, fun i hi => (hchecks i hi).2⟩
  · rintro ⟨⟨hload, names, hnames, hset, hchecks, hroots⟩, hreal, hkeeps⟩
    exact ⟨⟨hload, hreal.root, hreal.origin⟩, names, ⟨hnames, hreal.inputs⟩, hset,
      fun i hi => ⟨hchecks i hi, hkeeps i hi⟩, hroots⟩

end KernelInputs
