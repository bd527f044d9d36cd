import Mathlib.Data.List.Induction
import Peios.Labels

/-!
# Directories

A `Directory fold V` is a tree of named entries that carry values, as a list of entries with the
path of what each lies in.  Names compare by `fold`, and paths are lists of folded names.  No two
entries have one path, and what an entry lies in is there.

The three ways to change one are total: `insert` leaves a directory that has the entry, or not what
it should lie in, as it is, and `erase` one in which something lies in the entry.  `find?_insert`,
`find?_modify` and `find?_erase` say what is found after each of them.
-/

namespace Directory

/-- A named entry, with the path of what it lies in. -/
structure Entry (N K V : Type) where
  parent : List K
  name : N
  value : V

/-- Where an entry is found. -/
def Entry.path {N K V : Type} (fold : N → K) (e : Entry N K V) : List K := e.parent ++ [fold e.name]

end Directory

/-- A tree of named entries. -/
@[ext] structure Directory {N K : Type} (fold : N → K) (V : Type) where
  entries : List (Directory.Entry N K V)
  nodup : (entries.map (Directory.Entry.path fold)).Nodup
  closed : ∀ e ∈ entries, e.parent = [] ∨ ∃ e' ∈ entries, e'.path fold = e.parent

namespace Directory

variable {N K V : Type} {fold : N → K}

/-- The directory without entries. -/
def empty : Directory fold V := { entries := [], nodup := List.nodup_nil, closed := by simp }

variable [DecidableEq K] (d : Directory fold V)

/-! ### Looking up -/

/-- The entry at a path. -/
def find? (p : List K) : Option (Entry N K V) := d.entries.find? fun e => e.path fold = p

/-- The entries that lie in what is at a path. -/
def children (p : List K) : List (Entry N K V) := d.entries.filter fun e => e.parent = p

/-- Something can lie at the path: it is the root's, or that of an entry. -/
def Has (p : List K) : Prop := p = [] ∨ ∃ e ∈ d.entries, e.path fold = p

instance (p : List K) : Decidable (d.Has p) := inferInstanceAs (Decidable (_ ∨ _))

variable {d} {p q : List K} {e : Entry N K V} {name : N} {v : V}

/-- What is found at a path is what is there. -/
theorem find?_eq_some : d.find? p = some e ↔ e ∈ d.entries ∧ e.path fold = p :=
  Labels.find?_eq_some_iff d.nodup

theorem path_of_find? (h : d.find? p = some e) : e.path fold = p := (find?_eq_some.mp h).2

theorem mem_of_find? (h : d.find? p = some e) : e ∈ d.entries := (find?_eq_some.mp h).1

/-- An entry is found at its path. -/
theorem find?_of_mem (he : e ∈ d.entries) : d.find? (e.path fold) = some e :=
  find?_eq_some.mpr ⟨he, rfl⟩

theorem find?_eq_none : d.find? p = none ↔ ∀ e ∈ d.entries, e.path fold ≠ p := by
  unfold find?
  rw [List.find?_eq_none]
  exact forall₂_congr fun e _ => by rw [decide_eq_true_eq]

theorem has_of_find? (h : d.find? p = some e) : d.Has p :=
  .inr ⟨e, mem_of_find? h, path_of_find? h⟩

theorem mem_children : e ∈ d.children p ↔ e ∈ d.entries ∧ e.parent = p := by
  unfold children
  rw [List.mem_filter, decide_eq_true_eq]

/-- What is found right under a path lies in what is there. -/
theorem mem_children_of_find? {k : K} (h : d.find? (p ++ [k]) = some e) :
    e ∈ d.children p ∧ fold e.name = k := by
  have hpath := path_of_find? h
  obtain ⟨hparent, hname⟩ := List.append_inj' hpath rfl
  exact ⟨mem_children.mpr ⟨mem_of_find? h, hparent⟩, List.singleton_inj.mp hname⟩

/-- What something lies in is there. -/
theorem has_of_mem_children (he : e ∈ d.children p) : d.Has p := by
  obtain ⟨hmem, rfl⟩ := mem_children.mp he
  exact d.closed e hmem

/-- Where there is an entry, what it lies in is there too. -/
theorem has_of_find?_append {k : K} (h : d.find? (p ++ [k]) = some e) : d.Has p :=
  has_of_mem_children (mem_children_of_find? h).1

/-- Nothing lies in what is not there. -/
theorem children_of_find?_eq_none (hp : p ≠ []) (h : d.find? p = none) : d.children p = [] := by
  apply List.eq_nil_iff_forall_not_mem.mpr
  intro e he
  obtain hnil | ⟨e', he', hpath⟩ := has_of_mem_children he
  · exact hp hnil
  · exact find?_eq_none.mp h e' he' hpath

/-- The entry at the end of the list, if there is none and what it should lie in is there. -/
def insert (d : Directory fold V) (p : List K) (name : N) (v : V) : Directory fold V :=
  if h : d.find? (p ++ [fold name]) = none ∧ d.Has p then
    -- the new entry is nobody's parent yet, and its own is there
    { entries := d.entries ++ [{ parent := p, name, value := v }]
      nodup := by
        rw [List.map_append, List.map_singleton, List.nodup_append]
        refine ⟨d.nodup, List.nodup_singleton _, ?_⟩
        intro path hpath path' hpath'
        obtain ⟨e, he, rfl⟩ := List.mem_map.mp hpath
        obtain rfl := List.mem_singleton.mp hpath'
        exact find?_eq_none.mp h.1 e he
      closed := by
        intro e he
        have hhas : e.parent = [] ∨ ∃ e' ∈ d.entries, e'.path fold = e.parent := by
          rcases List.mem_append.mp he with he | he
          · exact d.closed e he
          · obtain rfl := List.mem_singleton.mp he
            exact h.2
        exact hhas.imp_right fun ⟨e', he', hpath⟩ => ⟨e', List.mem_append_left _ he', hpath⟩ }
  else d

/-- A directory that has the entry is left as it is. -/
theorem insert_of_find? (h : d.find? (p ++ [fold name]) = some e) : d.insert p name v = d := by
  apply dif_neg
  rintro ⟨hnone, -⟩
  rw [h] at hnone
  cases hnone

theorem entries_insert (hnone : d.find? (p ++ [fold name]) = none) (hhas : d.Has p) :
    (d.insert p name v).entries = d.entries ++ [{ parent := p, name, value := v }] := by
  unfold insert
  rw [dif_pos ⟨hnone, hhas⟩]

theorem find?_insert (hnone : d.find? (p ++ [fold name]) = none) (hhas : d.Has p) (q : List K) :
    (d.insert p name v).find? q
      = if q = p ++ [fold name] then some { parent := p, name, value := v } else d.find? q := by
  have hentries := entries_insert (v := v) hnone hhas
  unfold find? at hnone ⊢
  rw [hentries, List.find?_append]
  split_ifs with hq
  · rw [hq, hnone, Option.none_or]
    exact List.find?_cons_of_pos (decide_eq_true rfl)
  · have hlast : ([{ parent := p, name, value := v }] : List (Entry N K V)).find?
        (fun e => e.path fold = q) = none := by
      apply List.find?_eq_none.mpr
      intro e he
      obtain rfl := List.mem_singleton.mp he
      exact fun hpath => hq (of_decide_eq_true hpath).symm
    rw [hlast, Option.or_none]

/-! ### Changing values -/

/-- The value of the entry at `p` changed by `f`. -/
def modify (d : Directory fold V) (p : List K) (f : V → V) : Directory fold V :=
  -- paths do not depend on values
  have hmap : ∀ l : List (Entry N K V),
      (l.map fun e => if e.path fold = p then { e with value := f e.value } else e).map
        (Entry.path fold) = l.map (Entry.path fold) := by
    intro l
    rw [List.map_map]
    refine List.map_congr_left fun e _ => ?_
    show (if e.path fold = p then { e with value := f e.value } else e : Entry N K V).path fold = _
    split_ifs <;> rfl
  { entries := d.entries.map fun e => if e.path fold = p then { e with value := f e.value } else e
    nodup := (hmap _).symm ▸ d.nodup
    closed := by
      intro e he
      obtain ⟨e₀, he₀, rfl⟩ := List.mem_map.mp he
      have hparent : (if e₀.path fold = p then { e₀ with value := f e₀.value } else e₀ :
          Entry N K V).parent = e₀.parent := by
        split_ifs <;> rfl
      rw [hparent]
      apply (d.closed e₀ he₀).imp_right
      rintro ⟨e', he', hpath⟩
      refine ⟨_, List.mem_map_of_mem he', ?_⟩
      rw [← hpath]
      split_ifs <;> rfl }

theorem find?_modify (f : V → V) (q : List K) :
    (d.modify p f).find? q
      = if q = p then (d.find? q).map fun e => { e with value := f e.value } else d.find? q := by
  -- looking for `q` finds the same entry, changed if it is the one at `p`
  have hpred : ∀ e : Entry N K V, (decide ((if e.path fold = p then { e with value := f e.value }
      else e : Entry N K V).path fold = q)) = decide (e.path fold = q) := by
    intro e
    split_ifs <;> rfl
  have hfun : ((fun e : Entry N K V => decide (e.path fold = q)) ∘ fun e =>
      if e.path fold = p then { e with value := f e.value } else e)
      = fun e => decide (e.path fold = q) := funext hpred
  have hmap : (d.modify p f).find? q
      = (d.find? q).map fun e => if e.path fold = p then { e with value := f e.value } else e := by
    unfold find? modify
    rw [List.find?_map, hfun]
  rw [hmap]
  rcases hfind : d.find? q with _ | e
  · rw [Option.map_none, Option.map_none, ite_self]
  · rw [Option.map_some, Option.map_some, path_of_find? hfind]
    split_ifs <;> rfl

/-! ### Erasing -/

/-- Without the entry at `p`, if nothing lies in it. -/
def erase (d : Directory fold V) (p : List K) : Directory fold V :=
  if h : d.children p = [] then
    { entries := d.entries.filter fun e => e.path fold ≠ p
      nodup := d.nodup.sublist (List.filter_sublist.map _)
      closed := by
        intro e he
        have hmem := (List.mem_filter.mp he).1
        apply (d.closed e hmem).imp_right
        rintro ⟨e', he', hpath⟩
        refine ⟨e', List.mem_filter.mpr ⟨he', decide_eq_true ?_⟩, hpath⟩
        -- were it the parent of another, that one would lie in it
        rintro rfl
        have hchild : e ∈ d.children (e'.path fold) := mem_children.mpr ⟨hmem, hpath.symm⟩
        rw [h] at hchild
        cases hchild }
  else d

theorem find?_erase (h : d.children p = []) (q : List K) :
    (d.erase p).find? q = if q = p then none else d.find? q := by
  have hentries : (d.erase p).entries = d.entries.filter fun e => e.path fold ≠ p := by
    unfold erase
    rw [dif_pos h]
  unfold find?
  rw [hentries, List.find?_filter]
  split_ifs with hq
  · apply List.find?_eq_none.mpr
    intro e _
    rw [hq]
    simp
  · have hpred : ∀ e : Entry N K V, e.path fold = q → e.path fold ≠ p := by
      rintro e rfl
      exact hq
    congr 1
    funext e
    simpa using hpred e

end Directory
