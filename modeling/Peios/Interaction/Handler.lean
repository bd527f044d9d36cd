import Peios.Interaction.Prog

/-!
# Environments: schedules and injected failures

Two ways to build the handler a program is run against.

* `Handler.scheduled`: the `n`-th call is answered from the `n`-th entry of a schedule.  With an
  arbitrary schedule this is an object that others change between any two calls; the state is the
  number of calls answered so far.
* `Handler.faulty`: the `n`-th call fails when the `n`-th outcome says so, and otherwise goes to
  the handler underneath, whose state only successful calls can touch.
-/

namespace Interaction

variable {C : Type} {R : C → Type} {α ε σ τ : Type}

namespace Handler

/-! ### Schedules -/

/-- Answer the `n`-th call from the `n`-th entry of `sched`. -/
def scheduled (answer : τ → (c : C) → R c) (sched : Nat → τ) : Handler C R Nat :=
  fun c n => (answer (sched n) c, n + 1)

/-! ### Injected failures -/

/-- Fail the `n`-th call with `e` when `outcome n = some e`, and leave the rest to `h`. -/
def faulty (fail : (c : C) → ε → R c) (outcome : Nat → Option ε) (h : Handler C R σ) :
    Handler C R (Nat × σ) :=
  fun c s => match outcome s.1 with
    | some e => (fail c e, s.1 + 1, s.2)
    | none => ((h c s.2).1, s.1 + 1, (h c s.2).2)

variable {fail : (c : C) → ε → R c} {outcome : Nat → Option ε} {h : Handler C R σ}

theorem faulty_of_some {n : Nat} {s : σ} {e : ε} (he : outcome n = some e) (c : C) :
    faulty fail outcome h c (n, s) = (fail c e, n + 1, s) := by
  simp only [faulty, he]

theorem faulty_of_none {n : Nat} {s : σ} (he : outcome n = none) (c : C) :
    faulty fail outcome h c (n, s) = ((h c s).1, n + 1, (h c s).2) := by
  simp only [faulty, he]

end Handler

end Interaction
