import Mathlib.Data.Set.List
import Peios.Python.Str

/-!
# Python's POSIX paths

`PurePosixPath.parse s` is `PurePosixPath(s)`: empty parts and those that are a dot are dropped.  A
`Component` is what an entry of a directory can be called, and `posix` writes down the path that
components make.  Such a path is parsed to its components (`relative?_posix`), and a string that is
written as it is parsed, neither from the root nor through `..`, is such a path
(`exists_posix_eq`).
-/

namespace Python

/-- A path: what it starts from, and the parts after that. -/
structure PurePosixPath where
  root : Str
  parts : List Str

namespace PurePosixPath

/-- The root that a path starts with: two slashes are one of their own, and more are as one. -/
def splitRoot (s : Str) : Str :=
  match s.takeWhile (· = 0x2f) with
  | [] => []
  | [_, _] => [0x2f, 0x2f]
  | _ => [0x2f]

/-- `PurePosixPath(s)`. -/
def parse (s : Str) : PurePosixPath :=
  { root := splitRoot s, parts := (s.splitOn 0x2f).filter fun part => part ≠ [] ∧ part ≠ [0x2e] }

/-- `path.is_absolute()`. -/
def isAbsolute (path : PurePosixPath) : Bool := path.root ≠ []

/-- `str(path)`. -/
def str (path : PurePosixPath) : Str :=
  if path.root = [] ∧ path.parts = [] then [0x2e] else path.root ++ [0x2f].intercalate path.parts

end PurePosixPath

/-- The name of an entry. -/
def IsComponent (s : Str) : Prop := s ≠ [] ∧ 0x2f ∉ s ∧ s ≠ [0x2e] ∧ s ≠ [0x2e, 0x2e]

instance (s : Str) : Decidable (IsComponent s) := inferInstanceAs (Decidable (_ ∧ _ ∧ _ ∧ _))

/-- What an entry of a directory can be called. -/
abbrev Component := { s : Str // IsComponent s }

/-- `path.as_posix()`. -/
def posix (p : List Component) : Str := [0x2f].intercalate (p.map Subtype.val)

/-- A part as the name of an entry. -/
def component? (part : Str) : Option Component :=
  if h : IsComponent part then some ⟨part, h⟩ else none

/-- Where a name leads to from a directory, if it only goes down. -/
def relative? (name : Str) : Option (List Component) :=
  if (PurePosixPath.parse name).isAbsolute then none
  else (PurePosixPath.parse name).parts.mapM component?

variable {p q : List Component} {s : Str}

theorem splitOn_posix (hp : p ≠ []) : (posix p).splitOn 0x2f = p.map Subtype.val := by
  apply List.splitOn_intercalate
  · intro part hpart
    obtain ⟨c, -, rfl⟩ := List.mem_map.mp hpart
    exact c.2.2.1
  · exact fun h => hp (List.map_eq_nil_iff.mp h)

/-- A path of components does not start from the root. -/
theorem splitRoot_posix (p : List Component) : PurePosixPath.splitRoot (posix p) = [] := by
  have htake : (posix p).takeWhile (· = 0x2f) = [] := by
    cases p with
    | nil => rfl
    | cons c p =>
      obtain ⟨hne, hslash, -⟩ := c.2
      obtain ⟨x, s, hs⟩ := List.exists_cons_of_ne_nil hne
      have hx : x ≠ 0x2f := by
        rintro rfl
        exact hslash (hs ▸ List.mem_cons_self ..)
      have hhead : ∃ t, posix (c :: p) = x :: t := by
        cases p with
        | nil => exact ⟨s, by simp [posix, hs]⟩
        | cons d p => exact ⟨_, by simp [posix, List.intercalate_cons_cons, hs]; rfl⟩
      obtain ⟨t, ht⟩ := hhead
      rw [ht, List.takeWhile_cons_of_neg (by simpa using hx)]
  unfold PurePosixPath.splitRoot
  rw [htake]

theorem parts_parse_posix (hp : p ≠ []) :
    (PurePosixPath.parse (posix p)).parts = p.map Subtype.val := by
  unfold PurePosixPath.parse
  dsimp only
  rw [splitOn_posix hp, List.filter_eq_self]
  intro part hpart
  obtain ⟨c, -, rfl⟩ := List.mem_map.mp hpart
  exact decide_eq_true ⟨c.2.1, c.2.2.2.1⟩

/-- Names of entries are read back. -/
theorem mapM_component? (p : List Component) : (p.map Subtype.val).mapM component? = some p := by
  induction p with
  | nil => rfl
  | cons c p ih =>
    rw [List.map_cons, List.mapM_cons, ih, component?, dif_pos c.2]
    rfl

/-- A path leads where its components say. -/
theorem relative?_posix (hp : p ≠ []) : relative? (posix p) = some p := by
  have hroot : (PurePosixPath.parse (posix p)).isAbsolute = false := by
    show decide (PurePosixPath.splitRoot (posix p) ≠ []) = false
    rw [splitRoot_posix]
    rfl
  unfold relative?
  rw [hroot, if_neg (by simp), parts_parse_posix hp, mapM_component?]

theorem posix_injective (hp : p ≠ []) (hq : q ≠ []) (h : posix p = posix q) : p = q :=
  Option.some.inj ((relative?_posix hp).symm.trans (h ▸ relative?_posix hq))

theorem posix_ne_nil (hp : p ≠ []) : posix p ≠ [] := by
  intro h
  have hread := relative?_posix hp
  rw [h] at hread
  exact hp (Option.some.inj hread).symm

/-- A path from a directory that is written as it is parsed, without `..`. -/
theorem exists_posix_eq (hroot : (PurePosixPath.parse s).isAbsolute = false)
    (hup : [0x2e, 0x2e] ∉ (PurePosixPath.parse s).parts) (hstr : (PurePosixPath.parse s).str = s)
    (hdot : s ≠ [0x2e]) : ∃ p, p ≠ [] ∧ posix p = s := by
  have hroot' : (PurePosixPath.parse s).root = [] := by
    simpa [PurePosixPath.isAbsolute] using hroot
  have hparts : (PurePosixPath.parse s).parts ≠ [] := by
    intro hnil
    unfold PurePosixPath.str at hstr
    rw [if_pos ⟨hroot', hnil⟩] at hstr
    exact hdot hstr.symm
  have hcomponent : ∀ part ∈ (PurePosixPath.parse s).parts, IsComponent part := by
    intro part hpart
    obtain ⟨hmem, hne⟩ := List.mem_filter.mp hpart
    have hne := of_decide_eq_true hne
    refine ⟨hne.1, ?_, hne.2, fun heq => hup (heq ▸ hpart)⟩
    intro hslash
    exact absurd (eq_false_of_mem_splitOnP part hmem _ hslash) (by simp)
  obtain ⟨p, hp⟩ : ∃ p : List Component, p.map Subtype.val = (PurePosixPath.parse s).parts :=
    CanLift.prf _ hcomponent
  refine ⟨p, ?_, ?_⟩
  · rintro rfl
    exact hparts hp.symm
  · unfold PurePosixPath.str at hstr
    rw [if_neg fun h => hparts h.2, hroot', List.nil_append] at hstr
    unfold posix
    rw [hp, hstr]

/-- Below a path, after a slash. -/
theorem posix_append (hp : p ≠ []) (hq : q ≠ []) : posix (p ++ q) = posix p ++ 0x2f :: posix q := by
  induction p with
  | nil => exact absurd rfl hp
  | cons c p ih =>
    cases p with
    | nil =>
      obtain ⟨d, q, rfl⟩ := List.exists_cons_of_ne_nil hq
      simp [posix, List.intercalate_cons_cons]
    | cons d p =>
      have hcons : ∀ r : List Component, posix (c :: d :: r) = c.1 ++ 0x2f :: posix (d :: r) := by
        intro r
        simp [posix, List.intercalate_cons_cons]
      rw [List.cons_append, List.cons_append, hcons, hcons, ← List.cons_append, ih (by simp),
        List.append_assoc, List.cons_append]

/-- What is written with a path and a slash in front lies below it. -/
theorem exists_eq_append (hp : p ≠ []) (hq : q ≠ []) (h : posix p ++ [0x2f] <+: posix q) :
    ∃ r, q = p ++ r := by
  obtain ⟨rest, hrest⟩ := h
  have hsplit : q.map Subtype.val = p.map Subtype.val ++ rest.splitOn 0x2f := by
    rw [← splitOn_posix hq, ← hrest, List.append_assoc, List.singleton_append,
      List.splitOn_append_cons_self, splitOn_posix hp]
  obtain ⟨p', r, rfl, hp', -⟩ := List.map_eq_append_iff.mp hsplit
  obtain rfl := List.map_injective_iff.mpr Subtype.val_injective hp'
  exact ⟨r, rfl⟩

/-! ### Suffixes -/

/-- `path.suffix`, of the last part of a path: from its last dot on, where something stands on both
sides of that. -/
def suffix (name : Str) : Str :=
  let stem := name.rtakeWhile (· ≠ 0x2e)
  if stem ≠ [] ∧ stem.length + 1 < name.length then 0x2e :: stem else []

/-- `path.with_suffix(suffix)`, of the last part of a path. -/
def withSuffix (name new : Str) : Str := name.take (name.length - (suffix name).length) ++ new

/-- It can be the name of an entry, where the suffix is more than two characters and no slash. -/
theorem isComponent_withSuffix {name new : Str} (hname : IsComponent name) (hslash : 0x2f ∉ new)
    (hlen : 2 < new.length) : IsComponent (withSuffix name new) := by
  have hlength : 2 < (withSuffix name new).length := by
    unfold withSuffix
    rw [List.length_append]
    omega
  refine ⟨?_, ?_, ?_, ?_⟩
  · rintro h
    rw [h] at hlength
    simp at hlength
  · unfold withSuffix
    rw [List.mem_append]
    rintro (h | h)
    · exact hname.2.1 (List.mem_of_mem_take h)
    · exact hslash h
  · rintro h
    rw [h] at hlength
    simp at hlength
  · rintro h
    rw [h] at hlength
    simp at hlength

example : withSuffix (lit "ruff.tar.gz") (lit ".new") = lit "ruff.tar.new" := by decide

end Python
