import Peios.FileTree
import Peios.Python.PurePath
import Peios.Python.Sequence

/-!
# The paths of kernel inputs

The roots that a snapshot of the kernel's inputs is made of, the errors that an updater raises, and
`checkedPath`, which refuses a name that is not written canonically or lies in none of the roots.  A
name that it returns leads down from one of them (`inside_of_checkedPath`).
-/

namespace KernelInputs

open Python

/-! ### Constants -/

def REPOSITORY : Str := lit "https://github.com/peios/kernel"

def SOURCE_PATHS : List Str :=
  [lit "include/uapi/pkm", lit "peios/rust/peios-uapi", lit "security/pkm/kacs/peios_uapi.rs"]

def LICENSE_PATHS : List Str :=
  [lit "LICENSES/preferred/MIT", lit "LICENSES/dual/Apache-2.0", lit "LICENSES/preferred/GPL-2.0",
    lit "LICENSES/exceptions/Linux-syscall-note"]

def INPUT_PATHS : List Str := SOURCE_PATHS ++ LICENSE_PATHS

def OWNERSHIP : Str :=
  lit "Kernel-owned snapshot; update from the source repository, do not edit semantic code here."

/-! ### Errors -/

/-- The snapshot or requested Git revision cannot be used safely. -/
inductive SnapshotError where
  /-- What Git says, if it fails. -/
  | git (stderr : List UInt8)
  /-- `--commit must be a complete lowercase commit object ID` -/
  | incompleteCommit
  /-- `--commit must identify the commit itself, not a tag object` -/
  | notTheCommit
  /-- `noncanonical snapshot path: …` -/
  | noncanonicalPath (name : Str)
  /-- `path outside kernel inputs: …` -/
  | pathOutside (name : Str)
  /-- `kernel input is not a regular file: …` -/
  | notRegularFile (path : Str)
  /-- `kernel revision is missing required input: …` -/
  | revisionMissing (root : Str)
  /-- `unexpected Git blob response for …` -/
  | unexpectedResponse (name : Str)
  /-- `truncated Git blob response for …` -/
  | truncatedResponse (name : Str)
  /-- `unexpected trailing data in Git blob response` -/
  | trailingData
  /-- `snapshot and ORIGIN.json must be real directories/files` -/
  | notReal
  /-- `invalid ORIGIN.json: …` -/
  | invalidOrigin
  /-- `ORIGIN.json does not identify the Peios kernel repository` -/
  | wrongRepository
  /-- `ORIGIN.json has no exact commit ID` -/
  | noExactCommit
  /-- `ORIGIN.json input roots do not match this updater` -/
  | wrongRoots
  /-- `ORIGIN.json must contain file hashes` -/
  | noHashes
  /-- `invalid SHA-256 for …` -/
  | invalidDigest (name : Str)
  /-- `ORIGIN.json file modes must cover every file` -/
  | modesNotCovering
  /-- `ORIGIN.json contains an unsupported file mode` -/
  | unsupportedMode
  /-- `snapshot contains a nonregular input: …` -/
  | nonregularInput (path : List Component)
  /-- `snapshot file set differs: missing=…, extra=…` -/
  | fileSetDiffers (missing extra : List Str)
  /-- `kernel-owned input was changed: …` -/
  | inputChanged (name : Str)
  /-- `kernel-owned file mode was changed: …` -/
  | modeChanged (name : Str)
  /-- `snapshot is missing required input: …` -/
  | snapshotMissing (root : Str)
deriving DecidableEq

/-- What is raised. -/
inductive PyError where
  | snapshot (e : SnapshotError)
  | os (e : OsError)
  /-- A `ValueError`, of a number that is none, of too few values to unpack or of undecodable
  bytes. -/
  | value
  /-- An `AttributeError`, of what `None` does not have. -/
  | attribute
  /-- A `KeyboardInterrupt`, or any other exception from outside. -/
  | interrupt
deriving DecidableEq

/-! ### Names -/

/-- `re.fullmatch(r"[0-9a-f]{40}|[0-9a-f]{64}", s)`, or another of such expressions. -/
def IsHex (lengths : List Nat) (s : Str) : Prop :=
  s.length ∈ lengths ∧ ∀ c ∈ s, (0x30 ≤ c ∧ c ≤ 0x39) ∨ (0x61 ≤ c ∧ c ≤ 0x66)

instance (lengths : List Nat) (s : Str) : Decidable (IsHex lengths s) :=
  inferInstanceAs (Decidable (_ ∧ _))

/-- A complete object ID of a commit. -/
abbrev IsCommitId (s : Str) : Prop := IsHex [40, 64] s

/-- A digest in hexadecimal. -/
abbrev IsDigest (s : Str) : Prop := IsHex [64] s

/-- `name == root or name.startswith(root + "/")`. -/
def Within (root name : Str) : Prop := name = root ∨ root ++ [0x2f] <+: name

instance (root name : Str) : Decidable (Within root name) := inferInstanceAs (Decidable (_ ∨ _))

/-- Reject paths that can escape the selected kernel input roots. -/
def checkedPath (name : Str) (roots : List Str) : Except PyError Str := do
  let path := PurePosixPath.parse name
  if path.isAbsolute ∨ [0x2e, 0x2e] ∈ path.parts ∨ path.str ≠ name then
    throw (.snapshot (.noncanonicalPath name))
  if ¬ ∃ root ∈ roots, Within root name then throw (.snapshot (.pathOutside name))
  return name

/-- The name leads down from a root. -/
def Inside (root name : Str) : Prop :=
  ∃ p q : List Component, p ≠ [] ∧ posix p = root ∧ posix (p ++ q) = name

variable {name name' : Str} {roots : List Str}

theorem checkedPath_eq_ok (h : checkedPath name roots = .ok name') :
    name' = name ∧ (PurePosixPath.parse name).isAbsolute = false ∧
      [0x2e, 0x2e] ∉ (PurePosixPath.parse name).parts ∧ (PurePosixPath.parse name).str = name ∧
      ∃ root ∈ roots, Within root name := by
  simp only [checkedPath, throw_eq, error_bind, ite_throw_eq_ok, pure_eq, Except.ok.injEq, not_or,
    Bool.not_eq_true, not_not, ne_eq] at h
  obtain ⟨⟨hroot, hup, hstr⟩, hwithin, rfl⟩ := h
  exact ⟨rfl, hroot, hup, hstr, hwithin⟩

/-- The roots are written canonically. -/
theorem exists_posix_of_mem_INPUT_PATHS : ∀ root ∈ INPUT_PATHS, ∃ p, p ≠ [] ∧ posix p = root := by
  have hcanonical : ∀ root ∈ INPUT_PATHS, (PurePosixPath.parse root).isAbsolute = false ∧
      [0x2e, 0x2e] ∉ (PurePosixPath.parse root).parts ∧ (PurePosixPath.parse root).str = root ∧
      root ≠ [0x2e] := by decide
  intro root hroot
  obtain ⟨habsolute, hup, hstr, hdot⟩ := hcanonical root hroot
  exact exists_posix_eq habsolute hup hstr hdot

/-- A name that is returned leads down from a root that is written canonically. -/
theorem inside_of_checkedPath (hroots : ∀ root ∈ roots, ∃ p, p ≠ [] ∧ posix p = root)
    (h : checkedPath name roots = .ok name') : ∃ root ∈ roots, Inside root name := by
  obtain ⟨-, habsolute, hup, hstr, root, hroot, hwithin⟩ := checkedPath_eq_ok h
  obtain ⟨p, hp, rfl⟩ := hroots root hroot
  refine ⟨_, hroot, ?_⟩
  rcases hwithin with rfl | hbelow
  · exact ⟨p, [], hp, rfl, by rw [List.append_nil]⟩
  · have hdot : name ≠ [0x2e] := by
      rintro rfl
      have hpos := List.length_pos_iff.mpr (posix_ne_nil hp)
      have hle := hbelow.length_le
      rw [List.length_append, List.length_singleton, List.length_singleton] at hle
      omega
    obtain ⟨q, hq, rfl⟩ := exists_posix_eq habsolute hup hstr hdot
    obtain ⟨r, rfl⟩ := exists_eq_append hp hq hbelow
    exact ⟨p, r, hp, rfl, rfl⟩

/-- So it is a path of names of entries. -/
theorem exists_posix_of_inside {root : Str} (h : Inside root name) :
    ∃ p, p ≠ [] ∧ posix p = name := by
  obtain ⟨p, q, hp, -, rfl⟩ := h
  exact ⟨p ++ q, by simp [hp], rfl⟩

end KernelInputs
