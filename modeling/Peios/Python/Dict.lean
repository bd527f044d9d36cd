import Mathlib.Data.List.Perm.Basic
import Mathlib.Data.List.Sort
import Peios.Labels
import Peios.Python.Sequence

/-!
# Python's dictionaries

A `Dict κ ν` lists its items in the order in which their keys were first set, and no key twice.
`get?_set` says what is found after an item is set, and `items_ofList` that a list without a
repeated key is the list of items of the dictionary made of it.
-/

namespace Python

/-- A dictionary. -/
@[ext] structure Dict (κ ν : Type) where
  items : List (κ × ν)
  nodup : (items.map Prod.fst).Nodup

namespace Dict

variable {κ ν : Type}

/-- `d.keys()`. -/
def keys (d : Dict κ ν) : List κ := d.items.map Prod.fst

/-- `{}`. -/
def empty : Dict κ ν := { items := [], nodup := List.nodup_nil }

/-- `dict(sorted(d.items()))`: no two keys are the same, so only keys are compared. -/
def sorted (d : Dict κ ν) (le : κ → κ → Bool) : Dict κ ν :=
  { items := d.items.mergeSort fun i j => le i.1 j.1
    nodup := ((List.mergeSort_perm ..).map Prod.fst).nodup_iff.mpr d.nodup }

theorem mem_items_sorted {d : Dict κ ν} {le : κ → κ → Bool} {i : κ × ν} :
    i ∈ (d.sorted le).items ↔ i ∈ d.items := (List.mergeSort_perm ..).mem_iff

variable [DecidableEq κ] (d : Dict κ ν) {k k' : κ} {v : ν}

/-- `d.get(k)`. -/
def get? (k : κ) : Option ν := (d.items.find? fun i => i.1 = k).map Prod.snd

/-- `d[k] = v`. -/
def set (k : κ) (v : ν) : Dict κ ν :=
  if h : k ∈ d.keys then
    -- the item stays where it is
    { items := d.items.map fun i => if i.1 = k then (k, v) else i
      nodup := by
        rw [List.map_map]
        have hkeys : d.items.map (Prod.fst ∘ fun i => if i.1 = k then (k, v) else i)
            = d.items.map Prod.fst := by
          apply List.map_congr_left
          intro i _
          rw [Function.comp_apply]
          split_ifs with hi
          · exact hi.symm
          · rfl
        exact hkeys ▸ d.nodup }
  else
    { items := d.items ++ [(k, v)]
      nodup := by
        rw [List.map_append, List.nodup_append]
        refine ⟨d.nodup, List.nodup_singleton _, ?_⟩
        intro a ha b hb hab
        obtain rfl := List.mem_singleton.mp hb
        exact h (hab ▸ ha) }

/-- `dict(l)`. -/
def ofList (l : List (κ × ν)) : Dict κ ν := l.foldl (fun d i => d.set i.1 i.2) empty

variable {d}

theorem get?_eq_some : d.get? k = some v ↔ (k, v) ∈ d.items := by
  unfold get?
  rw [Labels.map_find?_eq_some d.nodup]
  constructor
  · rintro ⟨i, hi, rfl, rfl⟩
    exact hi
  · intro hi
    exact ⟨(k, v), hi, rfl, rfl⟩

theorem mem_keys : k ∈ d.keys ↔ ∃ v, d.get? k = some v := by
  simp only [get?_eq_some, keys, List.mem_map, Prod.exists, exists_and_right, exists_eq_right]

theorem get?_eq_none : d.get? k = none ↔ k ∉ d.keys := by
  rw [mem_keys, ← Option.isSome_iff_exists, Bool.not_eq_true, Option.isSome_eq_false_iff,
    Option.isNone_iff_eq_none]

/-- A key that is set for the first time comes last. -/
theorem items_set (h : k ∉ d.keys) : (d.set k v).items = d.items ++ [(k, v)] := by
  unfold set
  rw [dif_neg h]

theorem get?_set : (d.set k v).get? k' = if k' = k then some v else d.get? k' := by
  apply Option.ext
  intro w
  rw [get?_eq_some]
  unfold set
  split_ifs with hk hk' hk'
  · subst hk'
    obtain ⟨i, hi, hik⟩ := List.mem_map.mp hk
    constructor
    · intro hw
      obtain ⟨j, -, hj⟩ := List.mem_map.mp hw
      split_ifs at hj with hjk
      · rw [(Prod.mk.inj hj).2]
      · exact absurd (congrArg Prod.fst hj) hjk
    · intro hw
      obtain rfl := Option.some.inj hw
      exact List.mem_map.mpr ⟨i, hi, if_pos hik⟩
  · rw [get?_eq_some]
    constructor
    · intro hw
      obtain ⟨j, hj, hjw⟩ := List.mem_map.mp hw
      split_ifs at hjw with hjk
      · exact absurd (congrArg Prod.fst hjw).symm hk'
      · exact hjw ▸ hj
    · intro hw
      exact List.mem_map.mpr ⟨_, hw, if_neg hk'⟩
  · subst hk'
    have hnot : (k', w) ∉ d.items := fun hw => hk (List.mem_map.mpr ⟨_, hw, rfl⟩)
    simp [hnot, eq_comm]
  · rw [get?_eq_some, List.mem_append]
    simp [hk']

theorem mem_keys_set : k' ∈ (d.set k v).keys ↔ k' = k ∨ k' ∈ d.keys := by
  rw [mem_keys, mem_keys]
  simp only [get?_set]
  split_ifs with hk
  · simp [hk]
  · simp [hk]

/-- The items of a dictionary made of a list without a repeated key. -/
theorem items_ofList {l : List (κ × ν)} (h : (l.map Prod.fst).Nodup) : (ofList l).items = l := by
  suffices hd : ∀ (l : List (κ × ν)) (d : Dict κ ν), ((d.items ++ l).map Prod.fst).Nodup →
      (l.foldl (fun d i => d.set i.1 i.2) d).items = d.items ++ l from hd l empty h
  intro l
  induction l with
  | nil => simp
  | cons i l ih =>
    intro d hd
    have hkey : i.1 ∉ d.keys := by
      rw [List.map_append, List.nodup_append] at hd
      intro hi
      exact hd.2.2 i.1 hi i.1 (List.mem_map_of_mem (List.mem_cons_self ..)) rfl
    have hitems := items_set (v := i.2) hkey
    rw [List.foldl_cons, ih]
    · rw [hitems, List.append_assoc]
      rfl
    · rw [hitems, List.append_assoc]
      exact hd

@[simp] theorem ofList_items (d : Dict κ ν) : ofList d.items = d := Dict.ext (items_ofList d.nodup)

@[simp] theorem get?_sorted {le : κ → κ → Bool} : (d.sorted le).get? k = d.get? k := by
  apply Option.ext
  intro v
  rw [get?_eq_some, get?_eq_some, mem_items_sorted]

@[simp] theorem mem_keys_sorted {le : κ → κ → Bool} : k ∈ (d.sorted le).keys ↔ k ∈ d.keys := by
  simp only [mem_keys, get?_sorted]

/-- `{k: f(v) for k, v in d.items()}`. -/
def map {μ : Type} (d : Dict κ ν) (f : ν → μ) : Dict κ μ :=
  { items := d.items.map fun i => (i.1, f i.2)
    nodup := by
      rw [List.map_map]
      exact d.nodup }

@[simp] theorem get?_map {μ : Type} (f : ν → μ) : (d.map f).get? k = (d.get? k).map f := by
  show ((d.items.map fun i => (i.1, f i.2)).find? fun i => i.1 = k).map Prod.snd = _
  rw [List.find?_map, Option.map_map]
  unfold get?
  rw [Option.map_map]
  rfl

/-! ### Checking each item -/

/-- The values that a check of each item returns, under the same keys. -/
def mapM {ε μ : Type} (d : Dict κ ν) (f : κ → ν → Except ε μ) : Except ε (Dict κ μ) := do
  let items ← d.items.mapM fun i => (f i.1 i.2).map fun v => (i.1, v)
  return ofList items

/-- What is returned are the items whose checks do. -/
theorem mapM_eq_ok {ε μ : Type} {f : κ → ν → Except ε μ} {d' : Dict κ μ} :
    d.mapM f = .ok d' ↔
      d.items.map (fun i => (i.1, f i.1 i.2)) = d'.items.map fun i => (i.1, .ok i.2) := by
  have hkeys : ∀ (l : List (κ × ν)) (r : List (κ × μ)),
      l.map (fun i => (f i.1 i.2).map fun v => (i.1, v)) = r.map .ok ↔
        l.map (fun i => (i.1, f i.1 i.2)) = r.map fun i => (i.1, .ok i.2) := by
    intro l
    induction l with
    | nil =>
      intro r
      cases r with
      | nil => simp
      | cons j r => simp
    | cons i l ih =>
      intro r
      cases r with
      | nil => simp
      | cons j r =>
        rw [List.map_cons, List.map_cons, List.map_cons, List.map_cons, List.cons.injEq,
          List.cons.injEq, ih]
        cases f i.1 i.2 with
        | error e => simp [Except.map]
        | ok v => simp [Except.map, Prod.ext_iff]
  unfold mapM
  rw [bind_eq_ok]
  simp only [Python.mapM_eq_ok, hkeys, pure_eq, Except.ok.injEq]
  constructor
  · rintro ⟨items, hitems, rfl⟩
    have hfst : items.map Prod.fst = d.items.map Prod.fst := by
      have hmap := congrArg (List.map Prod.fst) hitems
      simpa [List.map_map, Function.comp_def] using hmap.symm
    rw [items_ofList (hfst ▸ d.nodup), hitems]
  · intro h
    exact ⟨d'.items, h, ofList_items d'⟩

/-- The value under a key is what the check of the item returns. -/
theorem get?_of_mapM {ε μ : Type} {f : κ → ν → Except ε μ} {d' : Dict κ μ}
    (h : d.mapM f = .ok d') {w : μ} :
    d'.get? k = some w ↔ ∃ v, d.get? k = some v ∧ f k v = .ok w := by
  have hitems := mapM_eq_ok.mp h
  rw [get?_eq_some]
  constructor
  · intro hw
    have hmem : (k, Except.ok w) ∈ d.items.map fun i => (i.1, f i.1 i.2) :=
      hitems ▸ List.mem_map.mpr ⟨_, hw, rfl⟩
    obtain ⟨i, hi, heq⟩ := List.mem_map.mp hmem
    obtain ⟨rfl, hf⟩ := Prod.mk.inj heq
    exact ⟨i.2, get?_eq_some.mpr hi, hf⟩
  · rintro ⟨v, hv, hf⟩
    have hmem : (k, Except.ok w) ∈ d'.items.map fun i => (i.1, (Except.ok i.2 : Except ε μ)) := by
      rw [← hitems]
      exact List.mem_map.mpr ⟨(k, v), get?_eq_some.mp hv, by rw [hf]⟩
    obtain ⟨i, hi, heq⟩ := List.mem_map.mp hmem
    obtain ⟨rfl, hw⟩ := Prod.mk.inj heq
    obtain rfl := Except.ok.inj hw
    exact hi

/-- The keys are the same. -/
theorem keys_of_mapM {ε μ : Type} {f : κ → ν → Except ε μ} {d' : Dict κ μ}
    (h : d.mapM f = .ok d') : d'.keys = d.keys := by
  have hmap := congrArg (List.map Prod.fst) (mapM_eq_ok.mp h)
  simpa [keys, List.map_map, Function.comp_def] using hmap.symm

end Dict

end Python
