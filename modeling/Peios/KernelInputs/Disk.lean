import Peios.KernelInputs.Update

/-!
# What the updater runs against

A `Disk` holds what is at the path of the snapshot and in the temporary directory.  `reliable` does
what it is asked for, and asks `git`; a rename is as `rename(2)` has it.  `faulty` is the same where
any call may break: it raises an error, before or after its effect, and what was being written or
removed is left in any state.
-/

namespace KernelInputs

open Python FileTree Interaction

/-- What is at a path. -/
inductive Entry where
  | directory (tree : FileTree Component)
  | symlink (resolves : Bool)
  | other

/-- What is in the temporary directory. -/
structure Temporary where
  staging : Option Entry
  previous : Option Entry

/-- What is at the path of the snapshot, and in the temporary directory if there is one. -/
structure Disk where
  current : Option Entry
  temporary : Option Temporary

namespace Disk

/-- What is at a path. -/
def entry (d : Disk) : Place → Option Entry
  | .current => d.current
  | .staging => d.temporary.bind Temporary.staging
  | .previous => d.temporary.bind Temporary.previous

/-- The disk with something else at a path, if that has a place. -/
def put (d : Disk) (p : Place) (e : Option Entry) : Disk :=
  match p with
  | .current => { d with current := e }
  | .staging => { d with temporary := d.temporary.map fun t => { t with staging := e } }
  | .previous => { d with temporary := d.temporary.map fun t => { t with previous := e } }

/-- There is the directory that the path lies in. -/
def hasParent (d : Disk) : Place → Bool
  | .current => true
  | _ => d.temporary.isSome

variable {d : Disk} {p q : Place} {e e' : Option Entry}

theorem hasParent_of_entry {x : Entry} (h : d.entry p = some x) : d.hasParent p = true := by
  cases p with
  | current => rfl
  | staging =>
    obtain ⟨t, ht, -⟩ := Option.bind_eq_some_iff.mp h
    simp [hasParent, ht]
  | previous =>
    obtain ⟨t, ht, -⟩ := Option.bind_eq_some_iff.mp h
    simp [hasParent, ht]

@[simp] theorem hasParent_put : (d.put p e).hasParent q = d.hasParent q := by
  cases p <;> cases q <;> simp [put, hasParent]

/-- What is put at a path is there. -/
theorem entry_put (h : d.hasParent p = true) : (d.put p e).entry p = e := by
  cases p with
  | current => rfl
  | staging =>
    obtain ⟨t, ht⟩ := Option.isSome_iff_exists.mp h
    simp [put, entry, ht]
  | previous =>
    obtain ⟨t, ht⟩ := Option.isSome_iff_exists.mp h
    simp [put, entry, ht]

/-- What is at the other paths stays. -/
theorem entry_put_of_ne (h : q ≠ p) : (d.put p e).entry q = d.entry q := by
  cases hd : d.temporary <;> cases p <;> cases q <;> simp_all [put, entry]

@[simp] theorem put_put : (d.put p e).put p e' = d.put p e' := by
  cases hd : d.temporary <;> cases p <;> simp [put, hd]

/-- Putting back what is at a path changes nothing. -/
theorem put_entry : d.put p (d.entry p) = d := by
  cases d with
  | mk current temporary => cases temporary <;> cases p <;> rfl

/-- Why one cannot be renamed to the other. -/
def renameError (source : Entry) (target : Option Entry) : Option OsError :=
  match source, target with
  | _, none => none
  | .directory _, some (.directory tree) =>
    if ∀ p ∈ tree.nodes.keys, p = [] then none else some .notEmpty
  | .directory _, some _ => some .notDirectory
  | _, some (.directory _) => some .isDirectory
  | _, some _ => none

/-- `rename(2)`. -/
def rename (d : Disk) (source target : Place) : Except OsError Disk :=
  match d.entry source with
  | none => .error .noEntry
  | some e =>
    if d.hasParent target then
      match renameError e (d.entry target) with
      | none => .ok ((d.put source none).put target (some e))
      | some errno => .error errno
    else .error .noEntry

/-- A directory is renamed to where there is nothing. -/
theorem rename_directory {tree : FileTree Component} (hsource : d.entry p = some (.directory tree))
    (hparent : d.hasParent q = true) (htarget : d.entry q = none) :
    d.rename p q = .ok ((d.put p none).put q (some (.directory tree))) := by
  unfold rename
  rw [hsource]
  dsimp only
  rw [if_pos hparent, htarget]
  rfl

/-- A directory at a path is changed. -/
def change (d : Disk) (p : Place) (f : FileTree Component → Except OsError (FileTree Component)) :
    Except OsError Disk :=
  match d.entry p with
  | some (.directory tree) => (f tree).map fun tree => d.put p (some (.directory tree))
  | some _ => .error .notDirectory
  | none => .error .noEntry

end Disk

/-- A name, with the path of what it lies in. -/
def splitName (name : Str) : Except OsError (Path × Component) :=
  match relative? name with
  | none => .error .noEntry
  | some p =>
    match p.getLast? with
    | none => .error .isDirectory
    | some k => .ok (p.dropLast, k)

/-- What `check_snapshot` makes of what is at a path. -/
def checkEntry (sha256 : Sha256) (e : Option Entry) (allowLegacy : Bool) : Except PyError Origin :=
  match e with
  | some (.directory tree) => checkSnapshot sha256 { isSymlink := false, tree } allowLegacy false
  | _ => .error (.snapshot .notReal)

/-- Git, as a function of its arguments and input: what it writes, or to its standard error. -/
abbrev Git := List Str → List UInt8 → Except (List UInt8) (List UInt8)

/-- An operation that may fail, and then has no effect. -/
def attempt (d : Disk) (x : Except OsError Disk) : Except PyError Unit × Disk :=
  match x with
  | .ok d => (.ok (), d)
  | .error e => (.error (.os e), d)

variable (sha256 : Sha256) (git : Git)

/-- Calls do what they are for. -/
def reliable : Handler Call Reply Disk
  | .git args input, d => ((git args input).mapError fun stderr => .snapshot (.git stderr), d)
  | .exists_ p, d =>
    (.ok (match d.entry p with
      | some (.symlink resolves) => resolves
      | some _ => true
      | none => false), d)
  | .isSymlink p, d =>
    (.ok (match d.entry p with
      | some (.symlink _) => true
      | _ => false), d)
  | .check p allowLegacy, d => (checkEntry sha256 (d.entry p) allowLegacy, d)
  | .makeDestinationParent, d => (.ok (), d)
  | .mkdtemp, d => (.ok (), { d with temporary := some { staging := none, previous := none } })
  | .mkdir p, d => attempt d <|
    if (d.entry p).isSome then .error .exists_
    else if d.hasParent p then .ok (d.put p (some (.directory .empty))) else .error .noEntry
  | .makeParents p name, d => attempt d do
    let (parent, _) ← splitName name
    d.change p fun tree => tree.mkdirs [] parent
  | .writeBytes p name b, d => attempt d do
    let (parent, k) ← splitName name
    d.change p fun tree => tree.writeBytes parent k b
  | .chmod p name mode, d => attempt d do
    let (parent, k) ← splitName name
    d.change p fun tree => tree.chmod parent k mode
  | .replace source target, d => attempt d (d.rename source target)
  | .rmtree, d => (.ok (), { d with temporary := none })
  | .report, d => (.ok (), d)
  | .poll, d => (.ok (), d)

/-- How a call breaks: what it raises, whether it has had its effect, and what it leaves where it
was writing or removing. -/
structure Break where
  error : PyError
  happened : Bool
  entry : Option Entry
  temporary : Option Temporary

/-- What a call that breaks leaves behind; a rename happens as a whole or not at all. -/
def broken (b : Break) (c : Call) (d : Disk) : Disk :=
  match c with
  | .makeParents p _ => d.put p b.entry
  | .writeBytes p _ _ => d.put p b.entry
  | .chmod p _ _ => d.put p b.entry
  | .rmtree => { d with temporary := b.temporary }
  | c => if b.happened then (reliable sha256 git c d).2 else d

/-- The `n`-th call breaks as the `n`-th outcome says, if it does. -/
def faulty (outcome : Nat → Option Break) : Handler Call Reply (Nat × Disk) := fun c s =>
  match outcome s.1 with
  | none => ((reliable sha256 git c s.2).1, s.1 + 1, (reliable sha256 git c s.2).2)
  | some b => (.error b.error, s.1 + 1, broken sha256 git b c s.2)

end KernelInputs
