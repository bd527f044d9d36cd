import Peios.Interaction.Prog
import Mathlib.Logic.Relation

/-!
# Programs that share a state with others

`Interleaved env ans s p tr a u` says that, from the shared state `s`, the program `p` can return
`a` and leave `u` when each of its calls is answered from the state it finds (`ans`) and the others
may take any number of steps of `env` before, between and after those calls.  `tr` lists the states
the calls were answered in.
-/

namespace Interaction

open Relation

variable {C : Type} {R : C → Type} {α β σ : Type}

/-- A run of a program interleaved with the steps of others. -/
inductive Interleaved (env : σ → σ → Prop) (ans : (c : C) → σ → R c) :
    σ → Prog C R α → List σ → α → σ → Prop where
  /-- The program has ended. -/
  | ret (s : σ) (a : α) : Interleaved env ans s (.ret a) [] a s
  /-- Somebody else takes a step. -/
  | env {s t u : σ} {p : Prog C R α} {tr : List σ} {a : α} :
      env s t → Interleaved env ans t p tr a u → Interleaved env ans s p tr a u
  /-- The program takes a step: its call is answered from the state as it is. -/
  | call {s u : σ} (c : C) {k : R c → Prog C R α} {tr : List σ} {a : α} :
      Interleaved env ans s (k (ans c s)) tr a u →
        Interleaved env ans s (.call c k) (s :: tr) a u

namespace Interleaved

variable {env : σ → σ → Prop} {ans : (c : C) → σ → R c} {s t u : σ} {tr : List σ}

/-- The others may take any number of steps first. -/
theorem envs {p : Prog C R α} {a : α} (hst : ReflTransGen env s t)
    (h : Interleaved env ans t p tr a u) : Interleaved env ans s p tr a u := by
  induction hst using ReflTransGen.head_induction_on with
  | refl => exact h
  | head hs _ ih => exact .env hs ih

/-- After a program has ended only the others move. -/
theorem ret_inv {a b : α} (h : Interleaved env ans s (.ret a : Prog C R α) tr b u) :
    tr = [] ∧ b = a ∧ ReflTransGen env s u := by
  generalize hp : (Prog.ret a : Prog C R α) = p at h
  induction h with
  | ret s a' =>
    obtain rfl := Prog.ret.inj hp
    exact ⟨rfl, rfl, .refl⟩
  | env hst _ ih =>
    obtain ⟨htr, hb, hu⟩ := ih hp
    exact ⟨htr, hb, .head hst hu⟩
  | call c _ _ => cases hp

/-- A call is answered from a state the others can have reached. -/
theorem call_inv {c : C} {k : R c → Prog C R α} {a : α}
    (h : Interleaved env ans s (.call c k) tr a u) :
    ∃ t tr', ReflTransGen env s t ∧ tr = t :: tr' ∧
      Interleaved env ans t (k (ans c t)) tr' a u := by
  generalize hp : Prog.call c k = p at h
  induction h with
  | ret s a' => cases hp
  | env hst _ ih =>
    obtain ⟨t, tr', ht, htr, hrest⟩ := ih hp
    exact ⟨t, tr', .head hst ht, htr, hrest⟩
  | @call s _ _ _ tr' _ hrest _ =>
    cases hp
    exact ⟨s, tr', .refl, rfl, hrest⟩

/-- A run of a sequence is a run of its first half and then one of its second half. -/
theorem bind_inv {p : Prog C R α} {f : α → Prog C R β} {b : β}
    (h : Interleaved env ans s (p >>= f) tr b u) :
    ∃ tr₁ tr₂ a t, tr = tr₁ ++ tr₂ ∧ Interleaved env ans s p tr₁ a t ∧
      Interleaved env ans t (f a) tr₂ b u := by
  induction p generalizing s tr with
  | ret a => exact ⟨[], tr, a, s, rfl, .ret s a, h⟩
  | call c k ih =>
    obtain ⟨t, tr', hst, rfl, hrest⟩ := call_inv h
    obtain ⟨tr₁, tr₂, a, t', rfl, h₁, h₂⟩ := ih _ hrest
    exact ⟨t :: tr₁, tr₂, a, t', rfl, .envs hst (.call c h₁), h₂⟩

/-- A run of a call, and then of what follows it. -/
theorem lift_bind_inv {c : C} {f : R c → Prog C R β} {b : β}
    (h : Interleaved env ans s (Prog.lift c >>= f) tr b u) :
    ∃ t tr', ReflTransGen env s t ∧ tr = t :: tr' ∧ Interleaved env ans t (f (ans c t)) tr' b u :=
  call_inv (k := f) h

/-- When nobody else moves, a program runs alone. -/
theorem alone (p : Prog C R α) (s : σ) :
    ∃ tr, (∀ t ∈ tr, t = s) ∧
      Interleaved env ans s p tr (p.run (fun c s => (ans c s, s)) s).1 s := by
  induction p with
  | ret a => exact ⟨[], by simp, .ret s a⟩
  | call c k ih =>
    obtain ⟨tr, htr, hrun⟩ := ih (ans c s)
    refine ⟨s :: tr, ?_, .call c hrun⟩
    exact List.forall_mem_cons.mpr ⟨rfl, htr⟩

/-- The last state is one the others can reach from the first. -/
theorem reaches {p : Prog C R α} {a : α} (h : Interleaved env ans s p tr a u) :
    ReflTransGen env s u := by
  induction h with
  | ret s a => exact .refl
  | env hst _ ih => exact .head hst ih
  | call c _ ih => exact ih

/-- The others may take any number of steps afterwards. -/
theorem followed {p : Prog C R α} {a : α} (h : Interleaved env ans s p tr a t)
    (htu : ReflTransGen env t u) : Interleaved env ans s p tr a u := by
  induction h with
  | ret s a => exact envs htu (.ret _ a)
  | env hst _ ih => exact .env hst (ih htu)
  | call c _ ih => exact .call c (ih htu)

/-- Every state a call was answered in lies between the first state and the last. -/
theorem between {p : Prog C R α} {a : α} (h : Interleaved env ans s p tr a u) :
    ∀ t ∈ tr, ReflTransGen env s t ∧ ReflTransGen env t u := by
  induction h with
  | ret s a => simp
  | env hst _ ih => exact fun t ht => ⟨.head hst (ih t ht).1, (ih t ht).2⟩
  | call c hrest ih =>
    intro t ht
    rcases List.mem_cons.mp ht with rfl | ht
    · exact ⟨.refl, reaches hrest⟩
    · exact ih t ht

end Interleaved

end Interaction
