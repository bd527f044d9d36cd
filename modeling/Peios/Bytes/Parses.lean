import Mathlib.Data.List.Infix

/-!
# Readers at a position

A decoder that walks a buffer is a function from a position to a value and the position after it.
`Parses buf bad read R` says what there is to know of one: it succeeds exactly when a string that
stands for a value stands at the position, where `R a w` says that `w` stands for `a`, and it fails
with `bad` only.  The rules `Parses.ret`, `Parses.bind` and `Parses.congr` follow the way a decoder
is put together.
-/

namespace ByteString

variable {T ε α β : Type} {buf : List T} {bad : ε}

/-- At every position of `buf`, `read` gives `a` and the position after `w` exactly when some `w`
with `R a w` stands there, and `bad` when there is none. -/
structure Parses (buf : List T) (bad : ε) (read : Nat → Except ε (α × Nat))
    (R : α → List T → Prop) : Prop where
  ok_iff : ∀ {pos a stop}, pos ≤ buf.length →
    (read pos = .ok (a, stop) ↔ ∃ w, R a w ∧ w <+: buf.drop pos ∧ stop = pos + w.length)
  error_eq : ∀ {pos e}, pos ≤ buf.length → read pos = .error e → e = bad

/-- Two strings stand one after the other where their concatenation does. -/
theorem append_prefix_drop {w₁ w₂ : List T} {pos : Nat} :
    w₁ ++ w₂ <+: buf.drop pos ↔ w₁ <+: buf.drop pos ∧ w₂ <+: buf.drop (pos + w₁.length) := by
  constructor
  · rintro ⟨t, ht⟩
    rw [List.append_assoc] at ht
    refine ⟨⟨w₂ ++ t, ht⟩, t, ?_⟩
    rw [← List.drop_drop, ← ht, List.drop_left]
  · rintro ⟨⟨t₁, h₁⟩, t₂, h₂⟩
    refine ⟨t₂, ?_⟩
    rw [← List.drop_drop, ← h₁, List.drop_left] at h₂
    rw [List.append_assoc, h₂, h₁]

/-- What stands in a buffer ends in it. -/
theorem add_length_le_of_prefix_drop {w : List T} {pos : Nat} (hpos : pos ≤ buf.length)
    (hw : w <+: buf.drop pos) : pos + w.length ≤ buf.length := by
  have hle := hw.length_le
  rw [List.length_drop] at hle
  omega

namespace Parses

variable {read : Nat → Except ε (α × Nat)} {R : α → List T → Prop}

/-- Reading nothing. -/
theorem ret (buf : List T) (bad : ε) (a : α) :
    Parses buf bad (fun pos => .ok (a, pos)) (fun a' w => a' = a ∧ w = []) where
  ok_iff := by
    intro pos a' stop _
    constructor
    · intro h
      obtain ⟨rfl, rfl⟩ := Prod.mk.inj (Except.ok.inj h)
      exact ⟨[], ⟨rfl, rfl⟩, List.nil_prefix, rfl⟩
    · rintro ⟨w, ⟨rfl, rfl⟩, _, rfl⟩
      rfl
  error_eq := by
    intro pos e _ h
    cases h

/-- Reading one thing after another. -/
theorem bind {next : α → Nat → Except ε (β × Nat)} {S : α → β → List T → Prop}
    (hread : Parses buf bad read R) (hnext : ∀ a, Parses buf bad (next a) (S a)) :
    Parses buf bad (fun pos => read pos >>= fun r => next r.1 r.2)
      (fun b w => ∃ a w₁ w₂, R a w₁ ∧ S a b w₂ ∧ w = w₁ ++ w₂) where
  ok_iff := by
    intro pos b stop hpos
    constructor
    · intro h
      rcases hr : read pos with e | ⟨a, mid⟩
      · rw [hr] at h
        cases h
      rw [hr] at h
      have h : next a mid = .ok (b, stop) := h
      obtain ⟨w₁, hw₁, hpre₁, rfl⟩ := (hread.ok_iff hpos).mp hr
      have hmid := add_length_le_of_prefix_drop hpos hpre₁
      obtain ⟨w₂, hw₂, hpre₂, rfl⟩ := ((hnext a).ok_iff hmid).mp h
      refine ⟨w₁ ++ w₂, ⟨a, w₁, w₂, hw₁, hw₂, rfl⟩, append_prefix_drop.mpr ⟨hpre₁, hpre₂⟩, ?_⟩
      rw [List.length_append, Nat.add_assoc]
    · rintro ⟨w, ⟨a, w₁, w₂, hw₁, hw₂, rfl⟩, hpre, rfl⟩
      obtain ⟨hpre₁, hpre₂⟩ := append_prefix_drop.mp hpre
      have hmid := add_length_le_of_prefix_drop hpos hpre₁
      show (read pos >>= fun r => next r.1 r.2) = _
      rw [(hread.ok_iff hpos).mpr ⟨w₁, hw₁, hpre₁, rfl⟩, List.length_append, ← Nat.add_assoc]
      exact ((hnext a).ok_iff hmid).mpr ⟨w₂, hw₂, hpre₂, rfl⟩
  error_eq := by
    intro pos e hpos h
    rcases hr : read pos with e' | ⟨a, mid⟩
    · rw [hr] at h
      obtain rfl : e' = e := Except.error.inj h
      exact hread.error_eq hpos hr
    · rw [hr] at h
      have h : next a mid = .error e := h
      obtain ⟨w₁, _, hpre₁, rfl⟩ := (hread.ok_iff hpos).mp hr
      exact (hnext a).error_eq (add_length_le_of_prefix_drop hpos hpre₁) h

/-- The same reader, with the strings it reads described in another way. -/
theorem congr {read' : Nat → Except ε (α × Nat)} {R' : α → List T → Prop}
    (hread : Parses buf bad read R) (heq : ∀ pos ≤ buf.length, read' pos = read pos)
    (hR : ∀ a w, R a w ↔ R' a w) : Parses buf bad read' R' where
  ok_iff := by
    intro pos a stop hpos
    rw [heq pos hpos, hread.ok_iff hpos]
    exact exists_congr fun w => and_congr_left' (hR a w)
  error_eq := by
    intro pos e hpos h
    rw [heq pos hpos] at h
    exact hread.error_eq hpos h

end Parses

end ByteString
