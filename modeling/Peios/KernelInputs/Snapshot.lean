import Peios.KernelInputs.Paths
import Peios.Python.Json

/-!
# Checking a snapshot

A `Snapshot` is a directory with everything in it, and an `Origin` what its `ORIGIN.json` says.
`loadOrigin` reads that, and `checkSnapshot` compares it with the files that are listed, their
contents and their executable bits.  `Origin.Valid` is what `loadOrigin` has made sure of
(`valid_of_loadOrigin`).
-/

namespace KernelInputs

open Python FileTree

/-- `hashlib.sha256(b).hexdigest()`. -/
structure Sha256 where
  hexdigest : List UInt8 → Str
  isDigest : ∀ b, IsDigest (hexdigest b)

/-- The path of an entry, from a directory. -/
abbrev Path := List Component

/-- A directory, or a link to one. -/
structure Snapshot where
  isSymlink : Bool
  tree : FileTree Component

/-- What `ORIGIN.json` says of the modes of the files. -/
inductive FileModes where
  /-- Nothing. -/
  | missing
  /-- That they are `null`. -/
  | null
  | listed (modes : Dict Str Str)

/-- What `ORIGIN.json` says. -/
structure Origin where
  commit : Str
  paths : List Str
  files : Dict Str Str
  modes : FileModes

def ORIGIN_JSON : Component := ⟨lit "ORIGIN.json", by decide⟩

/-- The modes of regular files in Git. -/
def GIT_MODES : List Str := [lit "100644", lit "100755"]

/-- `a <= b`. -/
def strLe (a b : Str) : Bool := a ≤ b

/-- What an operation of the system returns, or its `OSError`. -/
def liftOs {α : Type} (x : Except OsError α) : Except PyError α := x.mapError .os

/-! ### `ORIGIN.json` -/

/-- The hashes, if their names lie in the roots. -/
def checkedFiles (paths : List Str) (hashes : Dict Str Json.Value) :
    Except PyError (Dict Str Str) :=
  hashes.mapM fun name digest => do
    let name ← checkedPath name paths
    orRaise (digest.string?.filter fun digest => IsDigest digest) (.snapshot (.invalidDigest name))

/-- The modes, if they cover the files. -/
def coveringModes (files : Dict Str Str) (modes : Option Json.Value) :
    Except PyError (Dict Str Str) := do
  let modes ← orRaise (modes.bind Json.Value.dict?) (.snapshot .modesNotCovering)
  if ¬ (modes.keys ⊆ files.keys ∧ files.keys ⊆ modes.keys) then
    throw (.snapshot .modesNotCovering)
  modes.mapM fun _ mode =>
    orRaise (mode.string?.filter fun mode => mode ∈ GIT_MODES) (.snapshot .unsupportedMode)

/-- What is said of the modes; a legacy snapshot need not say anything. -/
def checkedModes (legacy : Bool) (files : Dict Str Str) (modes : Option Json.Value) :
    Except PyError FileModes :=
  match modes, legacy with
  | none, true => return .missing
  | some .null, true => return .null
  | modes, _ => return .listed (← coveringModes files modes)

/-- What the members of `ORIGIN.json` say. -/
def originOf (data : Dict Str Json.Value) (allowLegacy : Bool) : Except PyError Origin := do
  if (data.get? (lit "repository")).bind Json.Value.string? ≠ some REPOSITORY then
    throw (.snapshot .wrongRepository)
  let commit ← orRaise (((data.get? (lit "commit")).bind Json.Value.string?).filter
    fun commit => IsCommitId commit) (.snapshot .noExactCommit)
  let paths ← orRaise ((data.get? (lit "paths")).bind Json.Value.strings?) (.snapshot .wrongRoots)
  let legacy := allowLegacy && paths = SOURCE_PATHS
  if paths ≠ INPUT_PATHS ∧ ¬ legacy then throw (.snapshot .wrongRoots)
  let hashes ← orRaise ((data.get? (lit "files")).bind Json.Value.dict?) (.snapshot .noHashes)
  if hashes.items = [] then throw (.snapshot .noHashes)
  let files ← checkedFiles paths hashes
  let modes ← checkedModes legacy files (data.get? (lit "file_modes"))
  return { commit, paths, files, modes }

/-- `path.is_symlink()`. -/
def isSymlink : Option Node → Bool
  | some (.symlink _) => true
  | _ => false

/-- `path.is_file()`. -/
def isFile : Option Node → Bool
  | some (.file _) => true
  | some (.symlink (some _)) => true
  | _ => false

/-- Validate the metadata before using any of its paths or hashes. -/
def loadOrigin (snapshot : Snapshot) (allowLegacy bazelInputs : Bool) : Except PyError Origin := do
  if ¬ bazelInputs ∧ snapshot.isSymlink then throw (.snapshot .notReal)
  if ¬ snapshot.tree.Reachable [ORIGIN_JSON] then throw (.os .access)
  let origin := snapshot.tree.node? [ORIGIN_JSON]
  if (¬ bazelInputs ∧ isSymlink origin) ∨ ¬ isFile origin then throw (.snapshot .notReal)
  let file ← liftOs (snapshot.tree.openFile [ORIGIN_JSON])
  let data ← orRaise ((readText file.content).bind Json.loads) (.snapshot .invalidOrigin)
  let data ← orRaise data.dict? (.snapshot .wrongRepository)
  originOf data allowLegacy

/-! ### The files -/

/-- The name that a path adds to the set of files. -/
def inputName (snapshot : Snapshot) (bazelInputs : Bool) (i : Path × Node) :
    Except PyError (Option Str) := do
  if ¬ snapshot.tree.Reachable i.1 then throw (.os .access)
  let name := if i.1 = [ORIGIN_JSON] then none else some (posix i.1)
  match i.2 with
  | .directory _ => return none
  | .file _ => return name
  | .symlink (some _) =>
    -- Bazel's links to files are declared input transport
    if bazelInputs then return name else throw (.snapshot (.nonregularInput i.1))
  | .symlink none => throw (.snapshot (.nonregularInput i.1))
  | .special => throw (.snapshot (.nonregularInput i.1))

/-- `data.get("file_modes", {}).get(name)`. -/
def Origin.expectedMode (data : Origin) (name : Str) : Except PyError (Option Str) :=
  match data.modes with
  | .missing => return none
  | .null => throw .attribute
  | .listed modes => return modes.get? name

/-- The file is executable for who owns it. -/
def isExecutable (f : File) : Bool := f.mode.testBit 6

/-- The content and the mode of a file. -/
def checkFile (sha256 : Sha256) (snapshot : Snapshot) (data : Origin) (bazelInputs : Bool)
    (i : Str × Str) : Except PyError Unit := do
  let path ← orRaise (relative? i.1) (.os .noEntry)
  let file ← liftOs (snapshot.tree.openFile path)
  if sha256.hexdigest file.content ≠ i.2 then throw (.snapshot (.inputChanged i.1))
  let some expectedMode ← data.expectedMode i.1 | return ()
  if ¬ bazelInputs ∧ isExecutable file ≠ decide (expectedMode = lit "100755") then
    throw (.snapshot (.modeChanged i.1))

/-- Verify the file set, hashes and Git modes; do not trust symlink targets. -/
def checkSnapshot (sha256 : Sha256) (snapshot : Snapshot) (allowLegacy bazelInputs : Bool) :
    Except PyError Origin := do
  let data ← loadOrigin snapshot allowLegacy bazelInputs
  let names ← snapshot.tree.listing.mapM (inputName snapshot bazelInputs)
  let actual := names.reduceOption
  let expected := data.files.keys
  if ¬ (actual ⊆ expected ∧ expected ⊆ actual) then
    throw (.snapshot (.fileSetDiffers ((expected.filter (· ∉ actual)).mergeSort strLe)
      ((actual.filter (· ∉ expected)).mergeSort strLe)))
  data.files.items.forM (checkFile sha256 snapshot data bazelInputs)
  data.paths.forM fun root =>
    if ∃ name ∈ expected, Within root name then return ()
    else throw (.snapshot (.snapshotMissing root))
  return data

/-! ### What has been made sure of -/

/-- What `loadOrigin` makes sure of. -/
structure Origin.Valid (data : Origin) : Prop where
  commit : IsCommitId data.commit
  paths : data.paths = INPUT_PATHS ∨ data.paths = SOURCE_PATHS
  nonempty : data.files.keys ≠ []
  names : ∀ name ∈ data.files.keys, checkedPath name data.paths = .ok name
  digests : ∀ name digest, data.files.get? name = some digest → IsDigest digest
  modes : ∀ modes, data.modes = .listed modes →
    (∀ name, name ∈ modes.keys ↔ name ∈ data.files.keys) ∧
    ∀ name mode, modes.get? name = some mode → mode ∈ GIT_MODES

variable {paths : List Str} {hashes : Dict Str Json.Value} {files : Dict Str Str}

theorem checkedFiles_ok (h : checkedFiles paths hashes = .ok files) :
    files.keys = hashes.keys ∧ ∀ name digest, files.get? name = some digest →
      checkedPath name paths = .ok name ∧ IsDigest digest := by
  refine ⟨Dict.keys_of_mapM h, fun name digest hget => ?_⟩
  obtain ⟨v, -, hv⟩ := (Dict.get?_of_mapM h).mp hget
  obtain ⟨name', hname, hdigest⟩ := bind_eq_ok.mp hv
  obtain rfl := (checkedPath_eq_ok hname).1
  rw [orRaise_eq_ok, Option.filter_eq_some_iff] at hdigest
  exact ⟨hname, of_decide_eq_true hdigest.2⟩

theorem coveringModes_ok {modes : Option Json.Value} {m : Dict Str Str}
    (h : coveringModes files modes = .ok m) : (∀ name, name ∈ m.keys ↔ name ∈ files.keys) ∧
      ∀ name mode, m.get? name = some mode → mode ∈ GIT_MODES := by
  simp only [coveringModes, throw_eq, error_bind, bind_eq_ok, orRaise_eq_ok, ite_throw_eq_ok,
    not_not] at h
  obtain ⟨modes, -, ⟨hsub, hsup⟩, hm⟩ := h
  rw [Dict.keys_of_mapM hm]
  refine ⟨fun name => ⟨fun h => hsub h, fun h => hsup h⟩, fun name mode hget => ?_⟩
  obtain ⟨v, -, hv⟩ := (Dict.get?_of_mapM hm).mp hget
  rw [orRaise_eq_ok, Option.filter_eq_some_iff] at hv
  exact of_decide_eq_true hv.2

theorem checkedModes_ok {legacy : Bool} {modes : Option Json.Value} {m : Dict Str Str}
    (h : checkedModes legacy files modes = .ok (.listed m)) :
    coveringModes files modes = .ok m := by
  unfold checkedModes at h
  split at h
  · cases h
  · cases h
  · obtain ⟨m', hm', heq⟩ := bind_eq_ok.mp h
    obtain rfl := FileModes.listed.inj (Except.ok.inj heq)
    exact hm'

theorem valid_of_originOf {data : Dict Str Json.Value} {allowLegacy : Bool} {origin : Origin}
    (h : originOf data allowLegacy = .ok origin) : origin.Valid := by
  simp only [originOf, throw_eq, error_bind, ite_throw_eq_ok, bind_eq_ok, orRaise_eq_ok, pure_eq,
    Except.ok.injEq, Option.filter_eq_some_iff] at h
  obtain ⟨-, commit, ⟨-, hcommit⟩, paths, -, hroots, hashes, -, hne, files, hfiles, modes, hmodes,
    rfl⟩ := h
  obtain ⟨hkeys, hchecked⟩ := checkedFiles_ok hfiles
  constructor
  · exact of_decide_eq_true hcommit
  · by_contra hno
    obtain ⟨hinput, hsource⟩ := not_or.mp hno
    apply hroots
    refine ⟨hinput, fun hlegacy => ?_⟩
    rw [Bool.and_eq_true, decide_eq_true_eq] at hlegacy
    exact hsource hlegacy.2
  · intro hnil
    rw [hkeys] at hnil
    exact hne (List.map_eq_nil_iff.mp hnil)
  · intro name hname
    obtain ⟨digest, hget⟩ := Dict.mem_keys.mp hname
    exact (hchecked name digest hget).1
  · intro name digest hget
    exact (hchecked name digest hget).2
  · rintro m rfl
    exact coveringModes_ok (checkedModes_ok hmodes)

/-- What is loaded is valid. -/
theorem valid_of_loadOrigin {snapshot : Snapshot} {allowLegacy bazelInputs : Bool} {origin : Origin}
    (h : loadOrigin snapshot allowLegacy bazelInputs = .ok origin) : origin.Valid := by
  simp only [loadOrigin, throw_eq, error_bind, ite_throw_eq_ok, bind_eq_ok] at h
  obtain ⟨-, -, -, file, -, data, -, dict, -, horigin⟩ := h
  exact valid_of_originOf horigin

end KernelInputs
