import Mathlib.Data.List.Induction
import Mathlib.Data.List.Infix
import Peios.Python.Dict

/-!
# Trees of files

A `FileTree K` is a directory with everything in it: nodes at paths of names, where the root is a
directory and so is what any node lies in.  Nodes say what the process that looks at them may do:
list and search a directory, read a file.

`mkdirs`, `writeBytes` and `chmod` fail where they have no place to write to; `node?_mkdirs` and the
lemmas after it say what is at each path where they do not fail.  `Visible` paths are those that
listing directories from the root on leads to, where directories that cannot be listed are passed
over, and `Reachable` ones those that can be named.
-/

/-- Why a file operation fails. -/
inductive OsError where
  | noEntry
  | exists_
  | notDirectory
  | isDirectory
  | notEmpty
  | access
deriving DecidableEq

namespace FileTree

/-- What a process may do with a directory. -/
structure Access where
  listable : Bool
  searchable : Bool
deriving DecidableEq

/-- What one may do with a directory of one's own. -/
def Access.full : Access := { listable := true, searchable := true }

/-- A regular file with its permission bits. -/
structure File where
  content : List UInt8
  mode : Nat
  readable : Bool
deriving DecidableEq

/-- What is at a path; a symbolic link may lead to a regular file. -/
inductive Node where
  | file (f : File)
  | directory (access : Access)
  | symlink (target : Option File)
  | special
deriving DecidableEq

end FileTree

open FileTree Python in
/-- A directory with everything in it. -/
structure FileTree (K : Type) [DecidableEq K] where
  nodes : Dict (List K) Node
  root : ∃ a, nodes.get? [] = some (.directory a)
  parents : ∀ p k n, nodes.get? (p ++ [k]) = some n → ∃ a, nodes.get? p = some (.directory a)

namespace FileTree

open Python

variable {K : Type} [DecidableEq K]

/-! ### Nodes -/

/-- The node at a path. -/
def node? (t : FileTree K) (p : List K) : Option Node := t.nodes.get? p

/-- There is a directory at the path. -/
def IsDir (t : FileTree K) (p : List K) : Prop := ∃ a, t.node? p = some (.directory a)

instance (t : FileTree K) (p : List K) : Decidable (t.IsDir p) :=
  match h : t.node? p with
  | some (.directory a) => isTrue ⟨a, h⟩
  | none => isFalse (by simp [IsDir, h])
  | some (.file _) => isFalse (by simp [IsDir, h])
  | some (.symlink _) => isFalse (by simp [IsDir, h])
  | some .special => isFalse (by simp [IsDir, h])

/-- A directory without entries. -/
def empty : FileTree K :=
  { nodes := { items := [([], .directory .full)], nodup := List.nodup_singleton _ }
    root := ⟨.full, rfl⟩
    parents := by
      intro p k n h
      have hmem := Dict.get?_eq_some.mp h
      simp at hmem }

/-- What the paths on the way to a path are. -/
def ancestors (p : List K) : List (List K) := p.inits.filter (· ≠ p)

variable {t t' : FileTree K} {p q : List K} {k : K} {n : Node}

theorem mem_ancestors : q ∈ ancestors p ↔ q <+: p ∧ q ≠ p := by
  unfold ancestors
  rw [List.mem_filter, List.mem_inits, decide_eq_true_eq]

theorem node?_empty : (empty : FileTree K).node? p
    = if p = [] then some (.directory .full) else none := by
  split_ifs with hp
  · rw [hp]
    rfl
  · show Dict.get? _ p = none
    rw [Dict.get?_eq_none]
    simpa [empty, Dict.keys] using hp

theorem not_isDir_of_node? {o : Option Node} (h : t.node? p = o)
    (ho : ∀ a, o ≠ some (.directory a)) : ¬ t.IsDir p := by
  rintro ⟨a, ha⟩
  exact ho a (h.symm.trans ha)

/-- What is on the way to a node is a directory. -/
theorem isDir_of_mem_ancestors (h : t.node? p = some n) (hq : q ∈ ancestors p) : t.IsDir q := by
  induction p using List.reverseRecOn generalizing n with
  | nil =>
    obtain ⟨hpre, hne⟩ := mem_ancestors.mp hq
    exact absurd (List.prefix_nil.mp hpre) hne
  | append_singleton p k ih =>
    obtain ⟨hpre, hne⟩ := mem_ancestors.mp hq
    obtain ⟨a, ha⟩ := t.parents p k n h
    rcases List.prefix_concat_iff.mp hpre with heq | hpre
    · exact absurd heq hne
    · by_cases hqp : q = p
      · exact hqp ▸ ⟨a, ha⟩
      · exact ih ha (mem_ancestors.mpr ⟨hpre, hqp⟩)

/-! ### Changing -/

/-- A node put where a directory has room for it. -/
def put (t : FileTree K) (p : List K) (k : K) (n : Node) (hparent : t.IsDir p)
    (hnew : ¬ t.IsDir (p ++ [k])) : FileTree K :=
  have hget : ∀ q, q ≠ p ++ [k] → (t.nodes.set (p ++ [k]) n).get? q = t.nodes.get? q := by
    intro q hq
    rw [Dict.get?_set, if_neg hq]
  { nodes := t.nodes.set (p ++ [k]) n
    root := by
      rw [hget [] (by simp)]
      exact t.root
    parents := by
      intro q j m h
      by_cases hq : q ++ [j] = p ++ [k]
      · obtain ⟨rfl, -⟩ := List.append_inj' hq rfl
        rw [hget q (by simp)]
        exact hparent
      · rw [hget _ hq] at h
        -- the new node is not what another lies in
        have hdir := t.parents q j m h
        rw [hget q fun heq => hnew (heq ▸ hdir)]
        exact hdir }

theorem node?_put {hparent : t.IsDir p} {hnew : ¬ t.IsDir (p ++ [k])} :
    (t.put p k n hparent hnew).node? q = if q = p ++ [k] then some n else t.node? q :=
  Dict.get?_set

/-- `os.mkdir`, where a directory that is there will do. -/
def mkdir (t : FileTree K) (p : List K) (k : K) : Except OsError (FileTree K) :=
  if hparent : t.IsDir p then
    if hnew : t.IsDir (p ++ [k]) then .ok t
    else if (t.node? (p ++ [k])).isSome then .error .exists_
    else .ok (t.put p k (.directory .full) hparent hnew)
  else .error (if (t.node? p).isSome then .notDirectory else .noEntry)

/-- The directories on a path below a directory. -/
def mkdirs (t : FileTree K) (base : List K) : List K → Except OsError (FileTree K)
  | [] => .ok t
  | k :: p => do
    let t ← t.mkdir base k
    t.mkdirs (base ++ [k]) p

/-- `path.write_bytes(b)`: a file that is there keeps its permission bits. -/
def writeBytes (t : FileTree K) (p : List K) (k : K) (b : List UInt8) :
    Except OsError (FileTree K) :=
  if hparent : t.IsDir p then
    if hnew : t.IsDir (p ++ [k]) then .error .isDirectory
    else match t.node? (p ++ [k]) with
      | none =>
        .ok (t.put p k (.file { content := b, mode := 0o644, readable := true }) hparent hnew)
      | some (.file f) => .ok (t.put p k (.file { f with content := b }) hparent hnew)
      | some _ => .error .access
  else .error (if (t.node? p).isSome then .notDirectory else .noEntry)

/-- `path.chmod(mode)` of a file. -/
def chmod (t : FileTree K) (p : List K) (k : K) (mode : Nat) : Except OsError (FileTree K) :=
  if hfile : t.IsDir p ∧ ¬ t.IsDir (p ++ [k]) then
    match t.node? (p ++ [k]) with
    | some (.file f) => .ok (t.put p k (.file { f with mode }) hfile.1 hfile.2)
    | some _ => .error .access
    | none => .error .noEntry
  else .error .noEntry

/-! ### Looking -/

/-- The names in a directory can be listed. -/
def listable (t : FileTree K) (p : List K) : Bool :=
  match t.node? p with
  | some (.directory a) => a.listable
  | _ => false

/-- What is in a directory can be named. -/
def searchable (t : FileTree K) (p : List K) : Bool :=
  match t.node? p with
  | some (.directory a) => a.searchable
  | _ => false

/-- The path can be named. -/
def Reachable (t : FileTree K) (p : List K) : Prop := ∀ q ∈ ancestors p, t.searchable q = true

/-- Listing directories from the root on leads to the path. -/
def Visible (t : FileTree K) (p : List K) : Prop :=
  (∀ q ∈ ancestors p, t.listable q = true) ∧ t.Reachable p.dropLast

instance (t : FileTree K) (p : List K) : Decidable (t.Reachable p) :=
  inferInstanceAs (Decidable (∀ _ ∈ _, _))

instance (t : FileTree K) (p : List K) : Decidable (t.Visible p) :=
  inferInstanceAs (Decidable (_ ∧ _))

/-- What a recursive listing of the root yields: a directory that cannot be listed is passed over.
-/
def listing (t : FileTree K) : List (List K × Node) :=
  t.nodes.items.filter fun i => i.1 ≠ [] ∧ t.Visible i.1

/-- The file at a path, opened for reading; a link is followed. -/
def openFile (t : FileTree K) (p : List K) : Except OsError File :=
  if t.Reachable p then
    match t.node? p with
    | some (.file f) => if f.readable then .ok f else .error .access
    | some (.symlink (some f)) => if f.readable then .ok f else .error .access
    | some (.directory _) => .error .isDirectory
    | some _ => .error .noEntry
    | none => .error .noEntry
  else .error .access

theorem mem_listing : (p, n) ∈ t.listing ↔ t.node? p = some n ∧ p ≠ [] ∧ t.Visible p := by
  unfold listing node?
  rw [List.mem_filter, Dict.get?_eq_some, decide_eq_true_eq]

/-- What can be reached is seen where all on the way can be listed. -/
theorem visible_of_reachable (hlist : ∀ q ∈ ancestors p, t.listable q = true) (h : t.Reachable p) :
    t.Visible p := by
  refine ⟨hlist, fun q hq => h q ?_⟩
  obtain ⟨hpre, hne⟩ := mem_ancestors.mp hq
  refine mem_ancestors.mpr ⟨hpre.trans (List.dropLast_prefix p), ?_⟩
  rintro rfl
  have hle := hpre.length_le
  rw [List.length_dropLast] at hle
  cases q with
  | nil => exact hne rfl
  | cons k q =>
    rw [List.length_cons] at hle
    omega

theorem mem_ancestors_singleton : q ∈ ancestors [k] ↔ q = [] := by
  rw [mem_ancestors, List.prefix_cons_iff]
  constructor
  · rintro ⟨rfl | ⟨r, rfl, hr⟩, hne⟩
    · rfl
    · rw [List.prefix_nil.mp hr] at hne
      exact absurd rfl hne
  · rintro rfl
    exact ⟨.inl rfl, by simp⟩

/-- What is in the root can be reached where that can be searched. -/
theorem reachable_singleton : t.Reachable [k] ↔ t.searchable [] = true := by
  unfold Reachable
  simp only [mem_ancestors_singleton, forall_eq]

/-- What is in the root is seen where that can be listed. -/
theorem visible_singleton : t.Visible [k] ↔ t.listable [] = true := by
  unfold Visible
  simp only [mem_ancestors_singleton, forall_eq, and_iff_left_iff_imp]
  intro _ q hq
  obtain ⟨hpre, hne⟩ := mem_ancestors.mp hq
  exact absurd (List.prefix_nil.mp hpre) hne

/-- A file that can be reached and read. -/
theorem openFile_of_node? {f f' : File} (h : t.node? p = some (.file f)) :
    t.openFile p = .ok f' ↔ f' = f ∧ t.Reachable p ∧ f.readable = true := by
  unfold openFile
  rw [h]
  dsimp only
  split_ifs with hreach hread
  · rw [Except.ok.injEq]
    exact ⟨fun heq => ⟨heq.symm, hreach, hread⟩, fun heq => heq.1.symm⟩
  · constructor
    · rintro ⟨⟩
    · exact fun heq => hread heq.2.2
  · constructor
    · rintro ⟨⟩
    · exact fun heq => hreach heq.2.1

/-! ### Links -/

/-- A link to a file, replaced with the file. -/
def Node.followed : Node → Node
  | .symlink (some f) => .file f
  | n => n

/-- The tree with files in place of the links to them. -/
def followed (t : FileTree K) : FileTree K :=
  { nodes := t.nodes.map Node.followed
    root := by
      obtain ⟨a, ha⟩ := t.root
      exact ⟨a, by rw [Dict.get?_map, ha]; rfl⟩
    parents := by
      intro p k n h
      rw [Dict.get?_map, Option.map_eq_some_iff] at h
      obtain ⟨n', hn', -⟩ := h
      obtain ⟨a, ha⟩ := t.parents p k n' hn'
      exact ⟨a, by rw [Dict.get?_map, ha]; rfl⟩ }

@[simp] theorem node?_followed : t.followed.node? p = (t.node? p).map Node.followed :=
  Dict.get?_map _

@[simp] theorem listable_followed : t.followed.listable p = t.listable p := by
  unfold listable
  rw [node?_followed]
  cases hnode : t.node? p with
  | none => rfl
  | some n =>
    cases n with
    | symlink target => cases target <;> rfl
    | file f => rfl
    | directory a => rfl
    | special => rfl

@[simp] theorem searchable_followed : t.followed.searchable p = t.searchable p := by
  unfold searchable
  rw [node?_followed]
  cases hnode : t.node? p with
  | none => rfl
  | some n =>
    cases n with
    | symlink target => cases target <;> rfl
    | file f => rfl
    | directory a => rfl
    | special => rfl

@[simp] theorem reachable_followed : t.followed.Reachable p ↔ t.Reachable p := by
  unfold Reachable
  simp only [searchable_followed]

@[simp] theorem visible_followed : t.followed.Visible p ↔ t.Visible p := by
  unfold Visible
  simp only [listable_followed, reachable_followed]

theorem listing_followed : t.followed.listing = t.listing.map fun i => (i.1, i.2.followed) := by
  show (t.nodes.items.map fun i => (i.1, i.2.followed)).filter _ = _
  rw [List.filter_map]
  unfold listing
  simp only [Function.comp_def, visible_followed]

/-- Opening a file follows links anyway. -/
@[simp] theorem openFile_followed : t.followed.openFile p = t.openFile p := by
  unfold openFile
  simp only [reachable_followed, node?_followed]
  split_ifs with hreach
  · cases hnode : t.node? p with
    | none => rfl
    | some n =>
      cases n with
      | symlink target => cases target <;> rfl
      | file f => rfl
      | directory a => rfl
      | special => rfl
  · rfl

/-! ### What is written -/

/-- A path that can be made: what is on it are directories, or nothing. -/
def Free (t : FileTree K) (p : List K) : Prop :=
  ∀ q, q <+: p → t.node? q = none ∨ t.IsDir q

theorem mkdir_of_isDir (h : t.IsDir (p ++ [k])) : t.mkdir p k = .ok t := by
  obtain ⟨a, ha⟩ := h
  have hparent : t.IsDir p := t.parents p k _ ha
  unfold mkdir
  rw [dif_pos hparent, dif_pos ⟨a, ha⟩]

theorem mkdir_of_none (hparent : t.IsDir p) (h : t.node? (p ++ [k]) = none) :
    ∃ t', t.mkdir p k = .ok t' ∧ ∀ q, t'.node? q
      = if q = p ++ [k] then some (.directory .full) else t.node? q := by
  have hnew := not_isDir_of_node? h fun a => by simp
  refine ⟨t.put p k _ hparent hnew, ?_, fun q => node?_put⟩
  unfold mkdir
  rw [dif_pos hparent, dif_neg hnew, h]
  rfl

/-- The directories on a path are there afterwards, and nothing else is changed. -/
theorem node?_mkdirs {base : List K} (hbase : t.IsDir base) (hfree : t.Free (base ++ p)) :
    ∃ t', t.mkdirs base p = .ok t' ∧ ∀ q, t'.node? q
      = if t.node? q = none ∧ q <+: base ++ p then some (.directory .full) else t.node? q := by
  induction p generalizing t base with
  | nil =>
    refine ⟨t, rfl, fun q => ?_⟩
    rw [if_neg]
    rintro ⟨hnone, hpre⟩
    rw [List.append_nil] at hpre
    obtain ⟨a, ha⟩ := hbase
    by_cases hq : q = base
    · rw [hq, ha] at hnone
      cases hnone
    · obtain ⟨a', ha'⟩ := isDir_of_mem_ancestors ha (mem_ancestors.mpr ⟨hpre, hq⟩)
      rw [hnone] at ha'
      cases ha'
  | cons k p ih =>
    have happend : base ++ k :: p = base ++ [k] ++ p := by simp
    have hstep : ∃ t₁, t.mkdir base k = .ok t₁ ∧ ∀ q, t₁.node? q
        = if t.node? q = none ∧ q = base ++ [k] then some (.directory .full) else t.node? q := by
      rcases hfree (base ++ [k]) (happend ▸ List.prefix_append ..) with hnone | hdir
      · obtain ⟨t₁, hmk, hget⟩ := mkdir_of_none hbase hnone
        refine ⟨t₁, hmk, fun q => ?_⟩
        rw [hget]
        by_cases hq : q = base ++ [k]
        · rw [if_pos hq, if_pos ⟨hq ▸ hnone, hq⟩]
        · rw [if_neg hq, if_neg fun h => hq h.2]
      · refine ⟨t, mkdir_of_isDir hdir, fun q => ?_⟩
        rw [if_neg]
        rintro ⟨hnone, rfl⟩
        obtain ⟨a, ha⟩ := hdir
        rw [hnone] at ha
        cases ha
    obtain ⟨t₁, hmk, hget⟩ := hstep
    have hdir₁ : ∀ q, t.node? q = none ∨ t.IsDir q → t₁.node? q = none ∨ t₁.IsDir q := by
      intro q hq
      unfold IsDir
      rw [hget]
      split_ifs with h
      · exact .inr ⟨_, rfl⟩
      · exact hq
    have hbase₁ : t₁.IsDir (base ++ [k]) := by
      unfold IsDir
      rw [hget]
      split_ifs with h
      · exact ⟨_, rfl⟩
      · rcases hfree (base ++ [k]) (happend ▸ List.prefix_append ..) with hnone | hdir
        · exact absurd ⟨hnone, rfl⟩ h
        · exact hdir
    obtain ⟨t', hmks, hget'⟩ := ih hbase₁ fun q hq => hdir₁ q (hfree q (happend ▸ hq))
    refine ⟨t', ?_, fun q => ?_⟩
    · rw [mkdirs, hmk]
      exact hmks
    · by_cases hq : t.node? q = none ∧ q = base ++ [k]
      · have hnew : t₁.node? q = some (.directory .full) := by rw [hget, if_pos hq]
        have hpre : q <+: base ++ k :: p := by
          rw [hq.2, happend]
          exact List.prefix_append ..
        rw [hget', hnew, if_neg (by simp), if_pos ⟨hq.1, hpre⟩]
      · have hold : t₁.node? q = t.node? q := by rw [hget, if_neg hq]
        rw [hget', hold, happend]

/-- A file is written where there is nothing. -/
theorem writeBytes_of_none (hparent : t.IsDir p) (h : t.node? (p ++ [k]) = none)
    (b : List UInt8) : ∃ t', t.writeBytes p k b = .ok t' ∧ ∀ q, t'.node? q
      = if q = p ++ [k] then some (.file { content := b, mode := 0o644, readable := true })
        else t.node? q := by
  have hnew := not_isDir_of_node? h fun a => by simp
  refine ⟨t.put p k _ hparent hnew, ?_, fun q => node?_put⟩
  unfold writeBytes
  rw [dif_pos hparent, dif_neg hnew, h]

/-- A file that is written has the content. -/
theorem file_of_writeBytes {b : List UInt8} (h : t.writeBytes p k b = .ok t') :
    ∃ f, t'.node? (p ++ [k]) = some (.file f) ∧ f.content = b := by
  unfold writeBytes at h
  split_ifs at h with hparent hnew
  split at h
  · obtain rfl := Except.ok.inj h
    exact ⟨_, by rw [node?_put, if_pos rfl], rfl⟩
  · obtain rfl := Except.ok.inj h
    exact ⟨_, by rw [node?_put, if_pos rfl], rfl⟩
  · cases h

/-- The permission bits of a file are changed. -/
theorem chmod_of_file {f : File} (h : t.node? (p ++ [k]) = some (.file f)) (mode : Nat) :
    ∃ t', t.chmod p k mode = .ok t' ∧ ∀ q, t'.node? q
      = if q = p ++ [k] then some (.file { f with mode }) else t.node? q := by
  have hfile : t.IsDir p ∧ ¬ t.IsDir (p ++ [k]) :=
    ⟨t.parents p k _ h, not_isDir_of_node? h fun a => by simp⟩
  refine ⟨t.put p k _ hfile.1 hfile.2, ?_, fun q => node?_put⟩
  unfold chmod
  rw [dif_pos hfile, h]

/-- The tree is made of these files and of the directories on their paths. -/
structure Holds (t : FileTree K) (files : List K → Option File) : Prop where
  file : ∀ p f, t.node? p = some (.file f) ↔ files p = some f
  plain : ∀ p n, t.node? p = some n → (∃ f, n = .file f) ∨ n = .directory .full
  onPath : ∀ p, t.IsDir p → p = [] ∨ ∃ q f, files q = some f ∧ p <+: q

namespace Holds

variable {files : List K → Option File}

theorem empty : Holds (FileTree.empty : FileTree K) fun _ => none := by
  constructor
  · intro p f
    rw [node?_empty]
    split_ifs <;> simp
  · intro p n h
    rw [node?_empty] at h
    split_ifs at h
    exact .inr (Option.some.inj h).symm
  · rintro p ⟨a, ha⟩
    rw [node?_empty] at ha
    split_ifs at ha with hp
    exact .inl hp

/-- There is room for a path that none of the files is on, nor on the way to. -/
theorem free (ht : Holds t files) (h : ∀ q f, files q = some f → ¬ q <+: p) : t.Free p := by
  intro q hq
  cases hnode : t.node? q with
  | none => exact .inl rfl
  | some n =>
    rcases ht.plain q n hnode with ⟨f, rfl⟩ | rfl
    · exact absurd hq (h q f ((ht.file q f).mp hnode))
    · exact .inr ⟨_, hnode⟩

/-- With a file where there was nothing, and the directories on its path. -/
theorem add (ht : Holds t files) {f : File} (hnone : t.node? (p ++ [k]) = none)
    (hnode : ∀ q, t'.node? q = if q = p ++ [k] then some (.file f)
      else if t.node? q = none ∧ q <+: p then some (.directory .full) else t.node? q) :
    Holds t' fun q => if q = p ++ [k] then some f else files q := by
  have hfiles : files (p ++ [k]) = none := by
    cases hf : files (p ++ [k]) with
    | none => rfl
    | some g =>
      rw [(ht.file _ g).mpr hf] at hnone
      cases hnone
  constructor
  · intro q g
    rw [hnode]
    split_ifs with hq hmade
    · simp
    · constructor
      · rintro ⟨⟩
      · intro hg
        rw [(ht.file q g).mpr hg] at hmade
        cases hmade.1
    · exact ht.file q g
  · intro q n h
    rw [hnode] at h
    split_ifs at h with hq hmade
    · exact .inl ⟨f, (Option.some.inj h).symm⟩
    · exact .inr (Option.some.inj h).symm
    · exact ht.plain q n h
  · rintro q ⟨a, ha⟩
    rw [hnode] at ha
    split_ifs at ha with hq hmade
    · cases ha
    · exact .inr ⟨p ++ [k], f, if_pos rfl, hmade.2.trans (List.prefix_append ..)⟩
    · rcases ht.onPath q ⟨a, ha⟩ with hroot | ⟨r, g, hr, hpre⟩
      · exact .inl hroot
      · refine .inr ⟨r, g, ?_, hpre⟩
        rw [if_neg, hr]
        rintro rfl
        rw [hfiles] at hr
        cases hr

/-- A file is written with the directories on its path, and its permission bits are set. -/
theorem exists_writeFile (ht : Holds t files)
    (hfree : ∀ q f, files q = some f → ¬ q <+: p ++ [k] ∧ ¬ p ++ [k] <+: q) (b : List UInt8)
    (mode : Nat) : ∃ t₁ t₂ t₃, t.mkdirs [] p = .ok t₁ ∧ t₁.writeBytes p k b = .ok t₂ ∧
      t₂.chmod p k mode = .ok t₃ ∧
      Holds t₃ fun q => if q = p ++ [k] then some { content := b, mode, readable := true }
        else files q := by
  have hnone : t.node? (p ++ [k]) = none := by
    have hroom := ht.free (fun q f hq => (hfree q f hq).1) (p ++ [k]) (List.prefix_refl _)
    rcases hroom with hnone | hdir
    · exact hnone
    · rcases ht.onPath _ hdir with hroot | ⟨q, f, hq, hpre⟩
      · simp at hroot
      · exact absurd hpre (hfree q f hq).2
  have hfreeDir : t.Free ([] ++ p) := by
    apply ht.free
    exact fun q f hq hpre => (hfree q f hq).1 (hpre.trans (List.prefix_append ..))
  obtain ⟨t₁, hmk, hnode₁⟩ := node?_mkdirs (t := t) t.root hfreeDir
  have hdir₁ : t₁.IsDir p := by
    rcases hfreeDir p (List.prefix_refl _) with hp | ⟨a, ha⟩
    · exact ⟨_, by rw [hnode₁, if_pos ⟨hp, List.prefix_refl _⟩]⟩
    · exact ⟨a, by rw [hnode₁, if_neg (by simp [ha]), ha]⟩
  have hnone₁ : t₁.node? (p ++ [k]) = none := by
    rw [hnode₁, if_neg, hnone]
    rintro ⟨-, hpre⟩
    exact absurd hpre.length_le (by simp)
  obtain ⟨t₂, hwrite, hnode₂⟩ := writeBytes_of_none hdir₁ hnone₁ b
  obtain ⟨t₃, hchmod, hnode₃⟩ := chmod_of_file
    (f := { content := b, mode := 0o644, readable := true }) (by rw [hnode₂, if_pos rfl]) mode
  refine ⟨t₁, t₂, t₃, hmk, hwrite, hchmod, ht.add hnone fun q => ?_⟩
  rw [hnode₃, hnode₂, hnode₁, List.nil_append]
  split_ifs <;> rfl

/-- A file is written in the root. -/
theorem exists_writeBytes (ht : Holds t files) (hroot : ∀ q f, files q = some f → ¬ [k] <+: q)
    (b : List UInt8) : ∃ t', t.writeBytes [] k b = .ok t' ∧
      Holds t' fun q => if q = [k] then some { content := b, mode := 0o644, readable := true }
        else files q := by
  have hnone : t.node? ([] ++ [k]) = none := by
    cases hnode : t.node? ([] ++ [k]) with
    | none => rfl
    | some n =>
      rcases ht.plain _ n hnode with ⟨f, rfl⟩ | rfl
      · exact absurd (List.prefix_refl _) (hroot _ f ((ht.file _ f).mp hnode))
      · rcases ht.onPath _ ⟨_, hnode⟩ with hnil | ⟨q, f, hq, hpre⟩
        · simp at hnil
        · exact absurd hpre (hroot q f hq)
  obtain ⟨t', hwrite, hnode⟩ := writeBytes_of_none t.root hnone b
  refine ⟨t', hwrite, ht.add hnone fun q => ?_⟩
  rw [hnode]
  have hmade : ¬ (t.node? q = none ∧ q <+: ([] : List K)) := by
    rintro ⟨hq, hpre⟩
    obtain ⟨a, ha⟩ := t.root
    rw [List.prefix_nil.mp hpre] at hq
    rw [show t.node? [] = some (.directory a) from ha] at hq
    cases hq
  rw [if_neg hmade]

/-- Every directory can be listed and searched. -/
theorem listable_and_searchable (ht : Holds t files) (h : t.IsDir p) :
    t.listable p = true ∧ t.searchable p = true := by
  obtain ⟨a, ha⟩ := h
  rcases ht.plain p _ ha with ⟨f, hf⟩ | hfull
  · cases hf
  · obtain rfl := Node.directory.inj hfull
    unfold listable searchable
    rw [ha]
    exact ⟨rfl, rfl⟩

/-- So every node can be reached, and is listed. -/
theorem reachable (ht : Holds t files) (h : t.node? p = some n) : t.Reachable p :=
  fun _ hq => (ht.listable_and_searchable (isDir_of_mem_ancestors h hq)).2

theorem visible (ht : Holds t files) (h : t.node? p = some n) : t.Visible p :=
  visible_of_reachable (fun _ hq => (ht.listable_and_searchable (isDir_of_mem_ancestors h hq)).1)
    (ht.reachable h)

end Holds

end FileTree
