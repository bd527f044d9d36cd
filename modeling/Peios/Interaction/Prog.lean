import Mathlib.Tactic.Common

/-!
# Programs that make calls

A `Prog C R α` is a program that issues calls `c : C`, each answered by an `R c`, and ends with an
`α`.  What answers is a `Handler`: a state machine over the calls.  `run` drives a program against
a handler and `trace` lists the calls it made with their answers; `interp` replaces every call by
a program over another signature, and `run_interp` says that running the result is running the
original against the handler that runs those programs.

The last section is the same theory for programs that may fail (`ExceptT ε (Prog C R)`): a
sequence runs its second half from where the first one ended, or not at all.
-/

namespace Interaction

/-- A program issuing calls `c : C` answered by `R c`, and ending with an `α`. -/
inductive Prog (C : Type) (R : C → Type) (α : Type) where
  /-- The program that ends with `a`. -/
  | ret (a : α)
  /-- Issue `c`, and go on with its answer. -/
  | call (c : C) (k : R c → Prog C R α)

/-- What answers calls: a state machine with one transition per call. -/
abbrev Handler (C : Type) (R : C → Type) (σ : Type) := (c : C) → σ → R c × σ

/-- A call together with its answer. -/
abbrev Event (C : Type) (R : C → Type) := (c : C) × R c

variable {C : Type} {R : C → Type} {α β σ τ : Type}

namespace Prog

/-! ### The monad -/

/-- Sequencing. -/
def bind : Prog C R α → (α → Prog C R β) → Prog C R β
  | ret a, f => f a
  | call c k, f => call c fun r => (k r).bind f

instance : Monad (Prog C R) where
  pure := ret
  bind := bind

/-- The program that makes one call and returns its answer. -/
def lift (c : C) : Prog C R (R c) := call c ret

@[simp] theorem pure_eq (a : α) : (pure a : Prog C R α) = ret a := rfl

@[simp] theorem ret_bind (a : α) (f : α → Prog C R β) : (ret a >>= f) = f a := rfl

@[simp] theorem call_bind (c : C) (k : R c → Prog C R α) (f : α → Prog C R β) :
    (call c k >>= f) = call c fun r => k r >>= f := rfl

theorem bind_ret (p : Prog C R α) : (p >>= ret) = p := by
  induction p with
  | ret a => rfl
  | call c k ih =>
    rw [call_bind]
    exact congrArg (call c) (funext ih)

theorem bind_assoc' {γ : Type} (p : Prog C R α) (f : α → Prog C R β) (g : β → Prog C R γ) :
    (p >>= f >>= g) = (p >>= fun a => f a >>= g) := by
  induction p with
  | ret a => rfl
  | call c k ih =>
    simp only [call_bind]
    exact congrArg (call c) (funext ih)

instance : LawfulMonad (Prog C R) := LawfulMonad.mk' _ bind_ret ret_bind bind_assoc'

/-! ### Running against a handler -/

/-- Drive a program against `h` from state `s`: what it returns, and the state it leaves. -/
def run (h : Handler C R σ) : Prog C R α → σ → α × σ
  | ret a, s => (a, s)
  | call c k, s => (k (h c s).1).run h (h c s).2

/-- The calls a program makes against `h` from state `s`, with their answers. -/
def trace (h : Handler C R σ) : Prog C R α → σ → List (Event C R)
  | ret _, _ => []
  | call c k, s => ⟨c, (h c s).1⟩ :: (k (h c s).1).trace h (h c s).2

/-- The calls a program makes, in order. -/
def calls (p : Prog C R α) (h : Handler C R σ) (s : σ) : List C := (p.trace h s).map Sigma.fst

variable (h : Handler C R σ) (s : σ)

@[simp] theorem run_ret (a : α) : (ret a : Prog C R α).run h s = (a, s) := rfl

@[simp] theorem run_call (c : C) (k : R c → Prog C R α) :
    (call c k).run h s = (k (h c s).1).run h (h c s).2 := rfl

@[simp] theorem trace_ret (a : α) : (ret a : Prog C R α).trace h s = [] := rfl

@[simp] theorem trace_call (c : C) (k : R c → Prog C R α) :
    (call c k).trace h s = ⟨c, (h c s).1⟩ :: (k (h c s).1).trace h (h c s).2 := rfl

theorem run_bind (p : Prog C R α) (f : α → Prog C R β) (s : σ) :
    (p >>= f).run h s = (f (p.run h s).1).run h (p.run h s).2 := by
  induction p generalizing s with
  | ret a => rfl
  | call c k ih => exact ih _ _

theorem trace_bind (p : Prog C R α) (f : α → Prog C R β) (s : σ) :
    (p >>= f).trace h s = p.trace h s ++ (f (p.run h s).1).trace h (p.run h s).2 := by
  induction p generalizing s with
  | ret a => rfl
  | call c k ih =>
    rw [call_bind, trace_call, trace_call, ih]
    rfl

@[simp] theorem calls_ret (a : α) : (ret a : Prog C R α).calls h s = [] := rfl

theorem calls_bind (p : Prog C R α) (f : α → Prog C R β) (s : σ) :
    (p >>= f).calls h s = p.calls h s ++ (f (p.run h s).1).calls h (p.run h s).2 := by
  rw [calls, trace_bind, List.map_append, calls, calls]

/-- An invariant of the handler holds wherever a program ends. -/
theorem run_invariant {h : Handler C R σ} (I : σ → Prop) (hI : ∀ c s, I s → I (h c s).2)
    (p : Prog C R α) {s : σ} (hs : I s) : I (p.run h s).2 := by
  induction p generalizing s with
  | ret a => exact hs
  | call c k ih => exact ih _ (hI c s hs)

/-- What the calls a program makes keep holds wherever it ends. -/
theorem run_invariant_of_trace {h : Handler C R σ} (I : σ → Prop) {P : C → Prop}
    (hI : ∀ c s, P c → I s → I (h c s).2) (p : Prog C R α) {s : σ}
    (hp : ∀ ev ∈ p.trace h s, P ev.1) (hs : I s) : I (p.run h s).2 := by
  induction p generalizing s with
  | ret a => exact hs
  | call c k ih =>
    rw [trace_call, List.forall_mem_cons] at hp
    exact ih _ hp.2 (hI c s hp.1 hs)

/-- Handlers that answer alike from related states give the same result, and end in related
states. -/
theorem run_congr {h : Handler C R σ} {h' : Handler C R τ} (rel : σ → τ → Prop)
    (hrel : ∀ c s t, rel s t → (h c s).1 = (h' c t).1 ∧ rel (h c s).2 (h' c t).2)
    (p : Prog C R α) {s : σ} {t : τ} (hst : rel s t) :
    (p.run h s).1 = (p.run h' t).1 ∧ rel (p.run h s).2 (p.run h' t).2 := by
  induction p generalizing s t with
  | ret a => exact ⟨rfl, hst⟩
  | call c k ih =>
    obtain ⟨hanswer, hnext⟩ := hrel c s t hst
    rw [run_call, run_call, ← hanswer]
    exact ih _ hnext

/-! ### Interpretation -/

/-- Replace every call by a program over another signature. -/
def interp {D : Type} {S : D → Type} (f : (c : C) → Prog D S (R c)) : Prog C R α → Prog D S α
  | ret a => ret a
  | call c k => f c >>= fun r => (k r).interp f

/-- Running an interpreted program is running the program against the interpretation. -/
theorem run_interp {D : Type} {S : D → Type} (g : Handler D S σ) (f : (c : C) → Prog D S (R c))
    (p : Prog C R α) (s : σ) :
    (p.interp f).run g s = p.run (fun c s => (f c).run g s) s := by
  induction p generalizing s with
  | ret a => rfl
  | call c k ih =>
    rw [interp, run_bind, ih, run_call]

/-- Interpretation respects sequencing. -/
theorem interp_bind {D : Type} {S : D → Type} (f : (c : C) → Prog D S (R c)) (p : Prog C R α)
    (g : α → Prog C R β) : (p >>= g).interp f = p.interp f >>= fun a => (g a).interp f := by
  induction p with
  | ret a => rfl
  | call c k ih =>
    rw [call_bind, interp, interp, bind_assoc]
    exact congrArg (f c >>= ·) (funext ih)

/-! ### Programs that may fail -/

variable {ε : Type}

/-- Run a program that may fail. -/
def exec (h : Handler C R σ) (p : ExceptT ε (Prog C R) α) (s : σ) : Except ε α × σ :=
  p.run.run h s

/-- The calls a program that may fail makes. -/
def events (h : Handler C R σ) (p : ExceptT ε (Prog C R) α) (s : σ) : List (Event C R) :=
  p.run.trace h s

variable {h : Handler C R σ} {s s' : σ} {p : ExceptT ε (Prog C R) α}
  {f : α → ExceptT ε (Prog C R) β} {a : α} {e : ε}

@[simp] theorem exec_pure : exec h (pure a : ExceptT ε (Prog C R) α) s = (.ok a, s) := rfl

theorem exec_bind (p : ExceptT ε (Prog C R) α) (f : α → ExceptT ε (Prog C R) β) :
    exec h (p >>= f) s = match exec h p s with
      | (.ok a, s') => exec h (f a) s'
      | (.error e, s') => (.error e, s') := by
  rw [exec, ExceptT.run_bind, run_bind, exec]
  rcases p.run.run h s with ⟨_ | a, s'⟩ <;> rfl

theorem events_bind (p : ExceptT ε (Prog C R) α) (f : α → ExceptT ε (Prog C R) β) :
    events h (p >>= f) s = events h p s ++ match exec h p s with
      | (.ok a, s') => events h (f a) s'
      | (.error _, _) => [] := by
  rw [events, ExceptT.run_bind, trace_bind, exec]
  rcases p.run.run h s with ⟨_ | a, s'⟩ <;> rfl

/-- A sequence whose first half succeeds ends as its second half does. -/
theorem exec_bind_ok (hp : exec h p s = (.ok a, s')) :
    exec h (p >>= f) s = exec h (f a) s' := by
  rw [exec_bind, hp]

/-- A sequence whose first half fails ends there. -/
theorem exec_bind_error (hp : exec h p s = (.error e, s')) :
    exec h (p >>= f) s = (.error e, s') := by
  rw [exec_bind, hp]

/-- A sequence that succeeds goes through both halves. -/
theorem exec_bind_eq_ok {b : β} (hp : exec h (p >>= f) s = (.ok b, s')) :
    ∃ a s₁, exec h p s = (.ok a, s₁) ∧ exec h (f a) s₁ = (.ok b, s') := by
  rw [exec_bind] at hp
  rcases hr : exec h p s with ⟨e | a, s₁⟩
  · rw [hr] at hp
    cases hp
  · rw [hr] at hp
    exact ⟨a, s₁, rfl, hp⟩

theorem events_bind_ok (hp : exec h p s = (.ok a, s')) :
    events h (p >>= f) s = events h p s ++ events h (f a) s' := by
  rw [events_bind, hp]

theorem events_bind_error (hp : exec h p s = (.error e, s')) :
    events h (p >>= f) s = events h p s := by
  rw [events_bind, hp, List.append_nil]

/-- Computing with the result makes no call. -/
theorem exec_bind_pure (p : ExceptT ε (Prog C R) α) (g : α → β) :
    (exec h (p >>= fun a => pure (g a)) s).1 = (exec h p s).1.map g := by
  rw [exec_bind]
  rcases exec h p s with ⟨_ | a, s'⟩ <;> rfl

theorem events_bind_pure (p : ExceptT ε (Prog C R) α) (g : α → β) :
    events h (p >>= fun a => pure (g a)) s = events h p s := by
  rw [events_bind]
  rcases exec h p s with ⟨_ | a, s'⟩ <;> exact List.append_nil _

/-- What one step keeps, with what has been done so far, a loop of such steps keeps. -/
theorem exec_foldlM {ι : Type} {step : β → ι → ExceptT ε (Prog C R) β} {I : List ι → β → σ → Prop}
    (hstep : ∀ done b s i, I done b s →
      ∃ b' s', exec h (step b i) s = (.ok b', s') ∧ I (done ++ [i]) b' s')
    {b : β} (hI : I [] b s) (l : List ι) :
    ∃ b' s', exec h (l.foldlM step b) s = (.ok b', s') ∧ I l b' s' := by
  suffices h : ∀ done b s, I done b s → ∃ b' s', exec h (l.foldlM step b) s = (.ok b', s') ∧
      I (done ++ l) b' s' from h [] b s hI
  induction l with
  | nil =>
    intro done b s hI
    exact ⟨b, s, rfl, by rwa [List.append_nil]⟩
  | cons i l ih =>
    intro done b s hI
    obtain ⟨b₁, s₁, hexec₁, hI₁⟩ := hstep done b s i hI
    obtain ⟨b₂, s₂, hexec₂, hI₂⟩ := ih (done ++ [i]) b₁ s₁ hI₁
    refine ⟨b₂, s₂, ?_, ?_⟩
    · rw [List.foldlM_cons, exec_bind_ok hexec₁]
      exact hexec₂
    · rwa [List.append_assoc, List.singleton_append] at hI₂

/-- From `s` the program ends as `post` says, or fails with an error that `bad` allows. -/
def Meets (h : Handler C R σ) (p : ExceptT ε (Prog C R) α) (s : σ) (post : α → σ → Prop)
    (bad : ε → Prop) : Prop :=
  match exec h p s with
  | (.ok a, s') => post a s'
  | (.error e, _) => bad e

namespace Meets

variable {post : α → σ → Prop} {bad : ε → Prop}

theorem pure {a : α} (ha : post a s) : Meets h (pure a) s post bad := ha

theorem throw {e : ε} (he : bad e) : Meets h (throw e) s post bad := he

theorem bind {post' : β → σ → Prop} (hp : Meets h p s post bad)
    (hf : ∀ a s', post a s' → Meets h (f a) s' post' bad) : Meets h (p >>= f) s post' bad := by
  unfold Meets at hp ⊢
  rcases hr : exec h p s with ⟨e | a, s'⟩
  · rw [hr] at hp
    rw [exec_bind_error hr]
    exact hp
  · rw [hr] at hp
    rw [exec_bind_ok hr]
    exact hf a s' hp

theorem mono {post' : α → σ → Prop} {bad' : ε → Prop} (hp : Meets h p s post bad)
    (hpost : ∀ a s', post a s' → post' a s') (hbad : ∀ e, bad e → bad' e) :
    Meets h p s post' bad' := by
  unfold Meets at hp ⊢
  rcases hr : exec h p s with ⟨e | a, s'⟩
  · rw [hr] at hp
    exact hbad e hp
  · rw [hr] at hp
    exact hpost a s' hp

/-- What is met at the end of a run that succeeds. -/
theorem of_ok (hp : Meets h p s post bad) {a : α} (hok : (exec h p s).1 = .ok a) :
    post a (exec h p s).2 := by
  unfold Meets at hp
  rcases hr : exec h p s with ⟨e | a', s'⟩
  · rw [hr] at hok
    cases hok
  · rw [hr] at hp hok
    obtain rfl := Except.ok.inj hok
    exact hp

/-- What is met at the end of a run. -/
theorem ends (hp : Meets h p s post bad) :
    (∃ a s', exec h p s = (.ok a, s') ∧ post a s') ∨ ∃ e s', exec h p s = (.error e, s') ∧ bad e := by
  unfold Meets at hp
  rcases hr : exec h p s with ⟨e | a, s'⟩
  · rw [hr] at hp
    exact .inr ⟨e, s', rfl, hp⟩
  · rw [hr] at hp
    exact .inl ⟨a, s', rfl, hp⟩

end Meets

end Prog

end Interaction
