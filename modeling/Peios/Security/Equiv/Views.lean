import Peios.Security.Acl

/-!
# Indexing ACLs and arrays of SIDs

`AclView::ace` and `SidArrayView::get` take a `usize` and ask libpeios for the element at its low 32
bits.  `view_agrees_iff` says at which indices that agrees with `iter`.
-/

namespace Peios.Security

/-- libpeios has an ACE at each index below the count, and nowhere else. -/
def AclView.Answers (v : AclView) : Prop := ∀ i, (v.rawAce i).isSome ↔ i < v.count

/-- libpeios has an entry, with a SID, at each index below the count, and nowhere else. -/
structure SidArrayView.Answers (v : SidArrayView) : Prop where
  isSome_iff : ∀ i, (v.rawGet i).isSome ↔ i < v.count
  ne_null : ∀ i attributes, v.rawGet i ≠ some (none, attributes)

/-- The element that libpeios has is what is returned. -/
theorem SidArrayView.Answers.isSome_get {v : SidArrayView} (h : v.Answers) (i : Nat) :
    (v.get i).isSome ↔ UInt32.ofNat i < v.count := by
  rw [← h.isSome_iff]
  unfold SidArrayView.get
  rcases hraw : v.rawGet (.ofNat i) with _ | ⟨_ | sid, attributes⟩
  · rfl
  · exact absurd hraw (h.ne_null _ _)
  · rfl

/-- An index that depends on the low 32 bits agrees with the iteration exactly where they are all of
it, or where they are out of range too. -/
theorem agreesAt_u32_iff {α : Type} {get : Nat → Option α} {count : UInt32}
    (hcast : ∀ i, get i = get (i % 2 ^ 32))
    (hget : ∀ i, (get i).isSome ↔ UInt32.ofNat i < count) (i : Nat) :
    AgreesAt count.toNat get (iterate count.toNat get) i ↔
      i < 2 ^ 32 ∨ count.toNat ≤ i % 2 ^ 32 := by
  have hraw : ∀ j < 2 ^ 32, (get j).isSome ↔ j < count.toNat := by
    intro j hj
    rw [hget, UInt32.lt_iff_toNat_lt, UInt32.toNat_ofNat_of_lt' hj]
  have hsame : get = fun j => get (j % 2 ^ 32) := funext hcast
  have hagrees := agreesAt_cut_iff hraw count.toNat_lt i
  rwa [← hsame] at hagrees

theorem ofNat_mod_u32 (i : Nat) : UInt32.ofNat (i % 2 ^ 32) = .ofNat i := by
  apply UInt32.toNat_inj.mp
  rw [UInt32.toNat_ofNat', UInt32.toNat_ofNat', Nat.mod_mod]

/-- **Indexing a view agrees with iterating it** exactly at the indices that fit 32 bits, and at
those whose low 32 bits are out of range too. -/
theorem view_agrees_iff (i : Nat) :
    (∀ v : AclView, v.Answers →
      (AgreesAt v.len v.ace v.iter i ↔ i < 2 ^ 32 ∨ v.len ≤ i % 2 ^ 32)) ∧
    ∀ v : SidArrayView, v.Answers →
      (AgreesAt v.len v.get v.iter i ↔ i < 2 ^ 32 ∨ v.len ≤ i % 2 ^ 32) := by
  constructor
  · intro v hv
    have hcast : ∀ j, v.ace j = v.ace (j % 2 ^ 32) := by
      intro j
      unfold AclView.ace
      rw [ofNat_mod_u32]
    exact agreesAt_u32_iff hcast (fun j => hv _) i
  · intro v hv
    have hcast : ∀ j, v.get j = v.get (j % 2 ^ 32) := by
      intro j
      unfold SidArrayView.get
      rw [ofNat_mod_u32]
    exact agreesAt_u32_iff hcast hv.isSome_get i

/-! ### Views with two entries -/

/-- An ACL that denies one thing and allows another. -/
def twoAces : AclView :=
  { count := 2
    rawAce := fun i =>
      [{ rawType := KACS_ACE_TYPE_ACCESS_DENIED, rawFlags := 0, rawMask := 2, rawSid := some [1],
         rawObjectType := none, rawInheritedObjectType := none, rawAppData := none },
       { rawType := KACS_ACE_TYPE_ACCESS_ALLOWED, rawFlags := 0, rawMask := 1, rawSid := some [2],
         rawObjectType := none, rawInheritedObjectType := none, rawAppData := none }][i.toNat]? }

/-- An array of two SIDs. -/
def twoSids : SidArrayView where
  count := 2
  rawGet i := [(some [1], 4), (some [2], 7)][i.toNat]?

theorem twoAces_answers : twoAces.Answers := by
  intro i
  unfold twoAces
  rw [isSome_getElem?, UInt32.lt_iff_toNat_lt]
  rfl

theorem twoSids_answers : twoSids.Answers where
  isSome_iff i := by
    unfold twoSids
    rw [isSome_getElem?, UInt32.lt_iff_toNat_lt]
    rfl
  ne_null i attributes := by
    intro hnull
    have hmem := List.mem_of_getElem? hnull
    simp at hmem

/-- The second entry is what the iteration has second. -/
theorem view_agrees_iff_two :
    AgreesAt twoAces.len twoAces.ace twoAces.iter 1 ∧
      AgreesAt twoSids.len twoSids.get twoSids.iter 1 :=
  ⟨((view_agrees_iff 1).1 twoAces twoAces_answers).mpr (by decide),
    ((view_agrees_iff 1).2 twoSids twoSids_answers).mpr (by decide)⟩

/-- The index past the last that fits 32 bits is taken for the first. -/
theorem not_view_agrees_two :
    ¬ AgreesAt twoAces.len twoAces.ace twoAces.iter (2 ^ 32) ∧
    ¬ AgreesAt twoSids.len twoSids.get twoSids.iter (2 ^ 32) := by
  constructor
  · intro h
    exact absurd (h.isSome_iff.mp (by decide)) (by decide)
  · intro h
    exact absurd (h.isSome_iff.mp (by decide)) (by decide)

end Peios.Security
