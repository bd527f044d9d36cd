import Peios.Labels

/-!
# Bits with names

A `Table` gives names to some of the bits of a mask.  A mask of one bit can be looked up by the
name, and the name by the mask (`byName_eq_some_iff`); a mask of any bits has the names of those
that have one, from the lowest bit to the highest (`namesIn_eq`), and the union of what these names
stand for is what the mask has of the bits with names (`getLsbD_union_entriesIn`).
-/

namespace NamedBits

variable {ν : Type} {w : Nat}

/-- Names for some of the bits below `w`, from the lowest to the highest. -/
structure Table (ν : Type) (w : Nat) where
  entries : List (ν × Nat)
  nodup : (entries.map Prod.fst).Nodup
  sorted : entries.Pairwise fun e e' => e.2 < e'.2
  lt : ∀ e ∈ entries, e.2 < w

/-- The names, with the masks of their bits. -/
def Table.masks (t : Table ν w) : List (ν × BitVec w) :=
  t.entries.map fun e => (e.1, .twoPow w e.2)

/-- The union of masks. -/
def union (ps : List (BitVec w)) : BitVec w := ps.foldr (· ||| ·) 0#w

/-! ### Single bits -/

theorem getLsbD_union (ps : List (BitVec w)) (i : Nat) :
    (union ps).getLsbD i = ps.any fun p => p.getLsbD i := by
  unfold union
  induction ps with
  | nil => simp
  | cons p ps ih => rw [List.foldr_cons, BitVec.getLsbD_or, ih, List.any_cons]

theorem twoPow_inj {i j : Nat} (hi : i < w) : BitVec.twoPow w i = .twoPow w j ↔ i = j := by
  constructor
  · intro h
    have hbit : (BitVec.twoPow w j).getLsbD i = true := by
      rw [← h, BitVec.getLsbD_twoPow]
      simp [hi]
    rw [BitVec.getLsbD_twoPow, Bool.and_eq_true, decide_eq_true_eq, decide_eq_true_eq] at hbit
    exact hbit.2.symm
  · rintro rfl
    rfl

/-- A mask contains a single bit when it has it. -/
theorem and_twoPow_eq_self {m : BitVec w} {i : Nat} (hi : i < w) :
    m &&& .twoPow w i = .twoPow w i ↔ m.getLsbD i = true := by
  rw [BitVec.and_twoPow]
  split_ifs with hbit
  · exact iff_of_true rfl hbit
  · refine iff_of_false ?_ hbit
    intro h
    have hzero : (BitVec.twoPow w i).getLsbD i = false := by
      rw [← h]
      exact BitVec.getLsbD_zero
    rw [BitVec.getLsbD_twoPow] at hzero
    simp [hi] at hzero

/-! ### Lookups -/

variable [DecidableEq ν]

/-- The mask of a name. -/
def byName (l : List (ν × BitVec w)) (n : ν) : Option (BitVec w) :=
  (l.find? fun e => e.1 = n).map Prod.snd

omit [DecidableEq ν] in
/-- The name of a mask. -/
def byMask (l : List (ν × BitVec w)) (p : BitVec w) : Option ν :=
  (l.find? fun e => e.2 = p).map Prod.fst

omit [DecidableEq ν] in
/-- The names of the masks that a mask contains. -/
def namesIn (l : List (ν × BitVec w)) (m : BitVec w) : List ν :=
  (l.filter fun e => m &&& e.2 = e.2).map Prod.fst

namespace Table

variable (t : Table ν w) {n : ν} {p m : BitVec w} {i : Nat}

omit [DecidableEq ν] in
theorem mem_masks : (n, p) ∈ t.masks ↔ ∃ i, (n, i) ∈ t.entries ∧ .twoPow w i = p := by
  unfold masks
  rw [List.mem_map]
  constructor
  · rintro ⟨⟨n', i⟩, he, heq⟩
    obtain ⟨rfl, rfl⟩ := Prod.mk.inj heq
    exact ⟨i, he, rfl⟩
  · rintro ⟨i, he, rfl⟩
    exact ⟨(n, i), he, rfl⟩

omit [DecidableEq ν] in
theorem nodup_names : (t.masks.map Prod.fst).Nodup := by
  unfold masks
  rw [List.map_map]
  exact t.nodup

omit [DecidableEq ν] in
theorem nodup_bits : (t.entries.map Prod.snd).Nodup := by
  unfold List.Nodup
  rw [List.pairwise_map]
  exact t.sorted.imp fun h => Nat.ne_of_lt h

omit [DecidableEq ν] in
theorem nodup_masks : (t.masks.map Prod.snd).Nodup := by
  have hmasks : t.masks.map Prod.snd = (t.entries.map Prod.snd).map (BitVec.twoPow w) := by
    unfold masks
    rw [List.map_map, List.map_map]
    rfl
  rw [hmasks]
  apply List.Nodup.map_on _ t.nodup_bits
  intro i hi j _ heq
  obtain ⟨e, he, rfl⟩ := List.mem_map.mp hi
  exact (twoPow_inj (t.lt e he)).mp heq

theorem byName_eq_some : byName t.masks n = some p ↔ (n, p) ∈ t.masks := by
  unfold byName
  rw [Labels.map_find?_eq_some t.nodup_names]
  constructor
  · rintro ⟨e, he, rfl, rfl⟩
    exact he
  · intro he
    exact ⟨(n, p), he, rfl, rfl⟩

omit [DecidableEq ν] in
theorem byMask_eq_some : byMask t.masks p = some n ↔ (n, p) ∈ t.masks := by
  unfold byMask
  rw [Labels.map_find?_eq_some t.nodup_masks]
  constructor
  · rintro ⟨e, he, rfl, rfl⟩
    exact he
  · intro he
    exact ⟨(n, p), he, rfl, rfl⟩

/-- **Names and masks are inverse.** -/
theorem byName_eq_some_iff : byName t.masks n = some p ↔ byMask t.masks p = some n := by
  rw [byName_eq_some, byMask_eq_some]

omit [DecidableEq ν] in
/-- The name of a single bit is that of the entry for the bit. -/
theorem byMask_twoPow (hi : i < w) :
    byMask t.masks (.twoPow w i) = (t.entries.find? fun e => e.2 = i).map Prod.fst := by
  apply Option.ext
  intro n
  rw [byMask_eq_some, mem_masks, Labels.map_find?_eq_some t.nodup_bits]
  constructor
  · rintro ⟨j, hj, heq⟩
    obtain rfl := (twoPow_inj hi).mp heq.symm
    exact ⟨(n, i), hj, rfl, rfl⟩
  · rintro ⟨e, he, rfl, rfl⟩
    exact ⟨e.2, he, rfl⟩

/-! ### Masks of several bits -/

/-- The entries for the bits of a mask. -/
def entriesIn (m : BitVec w) : List (ν × Nat) := t.entries.filter fun e => m.getLsbD e.2

omit [DecidableEq ν] in
theorem namesIn_masks (m : BitVec w) : namesIn t.masks m = (t.entriesIn m).map Prod.fst := by
  unfold namesIn masks entriesIn
  rw [List.filter_map, List.map_map]
  congr 1
  apply List.filter_congr
  intro e he
  have hcontains := and_twoPow_eq_self (m := m) (t.lt e he)
  rw [Function.comp_apply, Bool.eq_iff_iff, decide_eq_true_eq]
  exact hcontains

omit [DecidableEq ν] in
/-- They are the entries for the bits that are set, one after another. -/
theorem entriesIn_eq (m : BitVec w) :
    t.entriesIn m = ((List.range w).filter m.getLsbD).filterMap fun i =>
      t.entries.find? fun e => e.2 = i := by
  -- both lists go up, and have the same elements
  have hfind : ∀ {i e}, t.entries.find? (fun e => e.2 = i) = some e ↔ e ∈ t.entries ∧ e.2 = i :=
    Labels.find?_eq_some_iff t.nodup_bits
  have hsorted : (t.entriesIn m).Pairwise fun e e' => e.2 < e'.2 := t.sorted.filter _
  have hsorted' : (((List.range w).filter m.getLsbD).filterMap fun i =>
      t.entries.find? fun e => e.2 = i).Pairwise fun e e' => e.2 < e'.2 := by
    apply List.Pairwise.filterMap _ _ (List.pairwise_lt_range.filter _)
    intro i j hij e he e' he'
    rw [(hfind.mp he).2, (hfind.mp he').2]
    exact hij
  have hnodup : ∀ {l : List (ν × Nat)}, l.Pairwise (fun e e' => e.2 < e'.2) → l.Nodup :=
    fun h => h.imp fun hlt heq => absurd (congrArg Prod.snd heq) (Nat.ne_of_lt hlt)
  apply List.Perm.eq_of_pairwise _ hsorted hsorted'
  · apply (List.perm_ext_iff_of_nodup (hnodup hsorted) (hnodup hsorted')).mpr
    intro e
    unfold entriesIn
    simp only [List.mem_filter, List.mem_filterMap, List.mem_range, hfind]
    constructor
    · rintro ⟨he, hbit⟩
      exact ⟨e.2, ⟨t.lt e he, hbit⟩, he, rfl⟩
    · rintro ⟨i, ⟨-, hbit⟩, he, rfl⟩
      exact ⟨he, hbit⟩
  · intro e e' _ _ hlt hgt
    omega

omit [DecidableEq ν] in
/-- **A mask has the names of its bits**, from the lowest to the highest. -/
theorem namesIn_eq (m : BitVec w) :
    namesIn t.masks m = ((List.range w).filter m.getLsbD).filterMap fun i =>
      byMask t.masks (.twoPow w i) := by
  rw [namesIn_masks, entriesIn_eq, List.map_filterMap]
  apply List.filterMap_congr
  intro i hi
  rw [t.byMask_twoPow (List.mem_range.mp (List.mem_filter.mp hi).1)]

omit [DecidableEq ν] in
theorem nodup_namesIn (m : BitVec w) : (namesIn t.masks m).Nodup := by
  rw [namesIn_masks]
  exact t.nodup.sublist (List.filter_sublist.map _)

/-- What the names of a mask stand for. -/
theorem map_byName_namesIn (m : BitVec w) :
    (namesIn t.masks m).map (byName t.masks)
      = ((t.entriesIn m).map fun e => BitVec.twoPow w e.2).map some := by
  rw [namesIn_masks, List.map_map, List.map_map]
  apply List.map_congr_left
  intro e he
  exact t.byName_eq_some.mpr (t.mem_masks.mpr ⟨e.2, (List.mem_filter.mp he).1, rfl⟩)

omit [DecidableEq ν] in
/-- **Together they are the mask**, but for the bits without a name. -/
theorem getLsbD_union_entriesIn (m : BitVec w) (hi : i < w) :
    (union ((t.entriesIn m).map fun e => BitVec.twoPow w e.2)).getLsbD i
      = (m.getLsbD i && (byMask t.masks (.twoPow w i)).isSome) := by
  rw [getLsbD_union, t.byMask_twoPow hi, Option.isSome_map, Bool.eq_iff_iff, List.any_map,
    List.any_eq_true, Bool.and_eq_true, List.find?_isSome]
  unfold entriesIn
  constructor
  · rintro ⟨e, he, hbit⟩
    obtain ⟨hmem, hset⟩ := List.mem_filter.mp he
    rw [Function.comp_apply, BitVec.getLsbD_twoPow, Bool.and_eq_true, decide_eq_true_eq,
      decide_eq_true_eq] at hbit
    obtain ⟨-, rfl⟩ := hbit
    exact ⟨hset, e, hmem, decide_eq_true rfl⟩
  · rintro ⟨hset, e, hmem, hbit⟩
    obtain rfl := of_decide_eq_true hbit
    refine ⟨e, List.mem_filter.mpr ⟨hmem, hset⟩, ?_⟩
    rw [Function.comp_apply, BitVec.getLsbD_twoPow]
    simp [hi]

end Table

end NamedBits
