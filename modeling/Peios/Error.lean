import Mathlib.Tactic.Common

/-!
# Errors and failed runs

A libpeios call reports failure by an `errno`, and an `Error` of the crate is exactly that number
(`peios/src/error.rs`).  A function of the crate can also fail to return at all: an index out of
range or an overflowing addition panics, and a loop can run for ever.  `Fault` has a case for each,
so that a theorem about a result says that the other two did not happen.

The numbers are those of `libc` on Linux.
-/

namespace Peios

/-- The `errno` an `Error` holds. -/
abbrev Errno := Int32

/-- No such file or directory. -/
def ENOENT : Errno := 2
/-- Bad file descriptor. -/
def EBADF : Errno := 9
/-- Try again. -/
def EAGAIN : Errno := 11
/-- File exists. -/
def EEXIST : Errno := 17
/-- Invalid argument. -/
def EINVAL : Errno := 22
/-- Math result not representable: here, a buffer that is too small. -/
def ERANGE : Errno := 34
/-- Directory not empty. -/
def ENOTEMPTY : Errno := 39
/-- Protocol error. -/
def EPROTO : Errno := 71

/-- Why a run of a function of the crate produced no value. -/
inductive Fault where
  /-- It returned `Err(e)`. -/
  | errno (e : Errno)
  /-- It panicked: an index out of range, or an addition that overflows. -/
  | panic
  /-- A loop was given too few rounds to end. -/
  | fuel
  deriving DecidableEq, Repr

/-- What running a fallible function gives. -/
abbrev Outcome (α : Type) := Except Fault α

/-- `if cond { return Err(e) }`. -/
def reject (cond : Prop) [Decidable cond] (e : Errno) : Outcome Unit :=
  if cond then throw (.errno e) else pure ()

/-- `Ok` or `Err` as the source returns it. -/
def ofResult {α : Type} : Except Errno α → Outcome α
  | .ok a => .ok a
  | .error e => .error (.errno e)

variable {α β : Type}

@[simp] theorem ok_bind (a : α) (f : α → Outcome β) : (Except.ok a >>= f) = f a := rfl

@[simp] theorem error_bind (e : Fault) (f : α → Outcome β) :
    ((Except.error e : Outcome α) >>= f) = .error e := rfl

/-- A sequence succeeds when both halves do. -/
theorem bind_eq_ok {x : Outcome α} {f : α → Outcome β} {b : β} :
    (x >>= f) = .ok b ↔ ∃ a, x = .ok a ∧ f a = .ok b := by
  rcases x with e | a
  · simp
  · simp

/-- A list is mapped when each of its elements is. -/
theorem mapM_eq_ok {f : α → Outcome β} {l : List α} {r : List β} :
    l.mapM f = .ok r ↔ l.map f = r.map .ok := by
  induction l generalizing r with
  | nil => simp [pure, Except.pure, eq_comm]
  | cons a l ih =>
    rw [List.mapM_cons, List.map_cons]
    cases r with
    | nil => simp [bind_eq_ok, pure, Except.pure]
    | cons b r => simp [bind_eq_ok, pure, Except.pure, ih]

@[simp] theorem reject_bind (cond : Prop) [Decidable cond] (e : Errno) (f : Unit → Outcome β) :
    (reject cond e >>= f) = if cond then .error (.errno e) else f () := by
  unfold reject
  split_ifs <;> rfl

/-! ### Which error -/

/-- The function fails with just this error, and succeeds if that is none. -/
def FailsWith (x : Outcome α) (e : Option Errno) : Prop :=
  match e with
  | none => ∃ a, x = .ok a
  | some e => x = .error (.errno e)

namespace FailsWith

variable {x y : Outcome α} {f : α → Outcome β} {e e' : Option Errno}

theorem eq_error {e : Errno} (h : FailsWith x (some e)) : x = .error (.errno e) := h

/-- A sequence fails with the error of its first half that has one. -/
theorem bind (hx : FailsWith x e) (hf : ∀ a, FailsWith (f a) e') : FailsWith (x >>= f) (e.or e') := by
  rcases e with _ | e
  · obtain ⟨a, rfl⟩ := hx
    exact hf a
  · rw [hx.eq_error]
    rfl

/-- A list is mapped with the first error of an element. -/
theorem mapM {error : α → Option Errno} (hf : ∀ a, FailsWith (f a) (error a)) (l : List α) :
    FailsWith (l.mapM f) (l.findSome? error) := by
  induction l with
  | nil => exact ⟨[], rfl⟩
  | cons a l ih =>
    have hrest : ∀ b, FailsWith (l.mapM f >>= fun bs => pure (b :: bs)) (l.findSome? error) := by
      intro b
      rw [← Option.or_none (o := l.findSome? error)]
      exact ih.bind fun bs => ⟨b :: bs, rfl⟩
    have hcons : (a :: l).findSome? error = (error a).or (l.findSome? error) := by
      rw [List.findSome?_cons]
      rcases error a with _ | e <;> rfl
    rw [List.mapM_cons, hcons]
    exact (hf a).bind hrest

/-- What fails with one error does not fail with another. -/
theorem unique (h : FailsWith x e) (h' : FailsWith x e') : e = e' := by
  rcases e with _ | e <;> rcases e' with _ | e'
  · rfl
  · obtain ⟨a, rfl⟩ := h
    cases h'
  · obtain ⟨a, rfl⟩ := h'
    cases h
  · have heq := h.eq_error.symm.trans h'.eq_error
    cases heq
    rfl

end FailsWith

end Peios
