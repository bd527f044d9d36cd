import Mathlib.Tactic.Common

/-!
# Builders that latch their first error

A builder is given one part after another.  It may refuse a part, and then keeps that first error,
whatever it is given later.  `step` says what giving a part to the builder makes of what it holds,
and whether the part is refused; `Latched.push` adds the latch.  An error comes from a part that was
refused (`refused_of_error_pushAll`), and without one none was (`accepted_of_error_pushAll`).

A builder that `appends` holds the parts it has accepted, so that one without an error holds all
parts it was given (`inner_pushAll_appends`).
-/

namespace Interaction

/-- What a builder holds, and the first error. -/
structure Latched (B ε : Type) where
  inner : B
  error : Option ε

namespace Latched

variable {B S ε : Type} {step : B → S → B × Option ε} {s : Latched B ε} {x : S} {xs : List S}

/-- Give the builder a part. -/
def push (step : B → S → B × Option ε) (s : Latched B ε) (x : S) : Latched B ε :=
  { inner := (step s.inner x).1, error := s.error.or (step s.inner x).2 }

/-- Give the builder parts, one after another. -/
def pushAll (step : B → S → B × Option ε) (s : Latched B ε) (xs : List S) : Latched B ε :=
  xs.foldl (push step) s

@[simp] theorem pushAll_nil : pushAll step s [] = s := rfl

@[simp] theorem pushAll_cons : pushAll step s (x :: xs) = pushAll step (push step s x) xs := rfl

theorem error_push_eq_none :
    (push step s x).error = none ↔ s.error = none ∧ (step s.inner x).2 = none :=
  Option.or_eq_none_iff

/-- A latched error is kept. -/
theorem error_push_of_some {e : ε} (he : s.error = some e) : (push step s x).error = some e := by
  unfold push
  rw [he]
  rfl

/-- A latched error is kept by all that follows. -/
theorem error_pushAll_of_some {e : ε} (he : s.error = some e) :
    (pushAll step s xs).error = some e := by
  induction xs generalizing s with
  | nil => exact he
  | cons x xs ih => exact ih (error_push_of_some he)

/-- What has no error in the end had none before. -/
theorem error_push_of_pushAll (h : (pushAll step s (x :: xs)).error = none) :
    (push step s x).error = none := by
  rcases he : (push step s x).error with _ | e
  · rfl
  · rw [pushAll_cons, error_pushAll_of_some he] at h
    cases h

/-- A builder without an error has accepted every part. -/
theorem accepted_of_error_pushAll (h : (pushAll step s xs).error = none) :
    ∀ x ∈ xs, ∃ b, (step b x).2 = none := by
  induction xs generalizing s with
  | nil => simp
  | cons x xs ih =>
    intro y hy
    rcases List.mem_cons.mp hy with rfl | hy
    · exact ⟨s.inner, (error_push_eq_none.mp (error_push_of_pushAll h)).2⟩
    · exact ih h y hy

/-- An error comes from a part that was refused, unless it was there before. -/
theorem refused_of_error_pushAll {e : ε} (h : (pushAll step s xs).error = some e) :
    s.error = some e ∨ ∃ b x, (step b x).2 = some e := by
  induction xs generalizing s with
  | nil => exact .inl h
  | cons x xs ih =>
    rcases ih h with hpush | hrefused
    · unfold push at hpush
      rcases hs : s.error with _ | e'
      · rw [hs] at hpush
        exact .inr ⟨s.inner, x, hpush⟩
      · rw [hs] at hpush
        exact .inl hpush
    · exact .inr hrefused

/-! ### Builders that append -/

/-- A builder that holds the parts it has accepted. -/
def appends (refuses : List S → S → Option ε) (parts : List S) (x : S) : List S × Option ε :=
  match refuses parts x with
  | none => (parts ++ [x], none)
  | some e => (parts, some e)

variable {refuses : List S → S → Option ε} {parts : List S} {s : Latched (List S) ε}

@[simp] theorem snd_appends : (appends refuses parts x).2 = refuses parts x := by
  unfold appends
  cases refuses parts x <;> rfl

/-- A builder without an error holds every part it was given. -/
theorem inner_pushAll_appends (h : (pushAll (appends refuses) s xs).error = none) :
    (pushAll (appends refuses) s xs).inner = s.inner ++ xs := by
  induction xs generalizing s with
  | nil => exact (List.append_nil _).symm
  | cons x xs ih =>
    have hinner : (push (appends refuses) s x).inner = s.inner ++ [x] := by
      have haccepts := (error_push_eq_none.mp (error_push_of_pushAll h)).2
      unfold push appends at *
      rcases hr : refuses s.inner x with _ | e
      · rfl
      · rw [hr] at haccepts
        cases haccepts
    rw [pushAll_cons, ih h, hinner, List.append_assoc, List.singleton_append]

end Latched

end Interaction
