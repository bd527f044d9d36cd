import Mathlib.Logic.Relation
import Peios.Interaction.Prog

/-!
# Programs whose calls change a state that others change too

`Concurrent env step s p a u` says that, from the state `s`, the program `p` can return `a` and
leave `u`, when each of its calls takes one `step` of the state and the others may take any number
of steps of `env` before, between and after those calls.  A step says what a call may be answered
and what it leaves.

`Ensures env step P p Q` is the triple: from every state of `P` the program ends as `Q` says,
whatever the others do.  Its rules ask that what is said of a state is `Stable` under the steps of
the others.
-/

namespace Interaction

open Relation

variable {C : Type} {R : C → Type} {α β ι σ : Type}

/-- A run of a program between the steps of others. -/
inductive Concurrent (env : σ → σ → Prop) (step : (c : C) → σ → R c → σ → Prop) :
    σ → Prog C R α → α → σ → Prop where
  /-- The program has ended. -/
  | ret (s : σ) (a : α) : Concurrent env step s (.ret a) a s
  /-- Somebody else takes a step. -/
  | env {s t u : σ} {p : Prog C R α} {a : α} :
      env s t → Concurrent env step t p a u → Concurrent env step s p a u
  /-- The program takes a step: a call is answered, and the state is what the call leaves. -/
  | call {s t u : σ} {c : C} {r : R c} {k : R c → Prog C R α} {a : α} :
      step c s r t → Concurrent env step t (k r) a u → Concurrent env step s (.call c k) a u

/-- What holds of a state is not changed by the steps of others. -/
def Stable (env : σ → σ → Prop) (P : σ → Prop) : Prop := ∀ s t, env s t → P s → P t

variable {env : σ → σ → Prop} {step : (c : C) → σ → R c → σ → Prop} {s t u : σ}

theorem Stable.of_reflTransGen {P : σ → Prop} (hP : Stable env P) (hst : ReflTransGen env s t)
    (hs : P s) : P t := by
  induction hst with
  | refl => exact hs
  | tail _ hstep ih => exact hP _ _ hstep ih

theorem Stable.and {P Q : σ → Prop} (hP : Stable env P) (hQ : Stable env Q) :
    Stable env fun s => P s ∧ Q s := fun s t hst hs => ⟨hP s t hst hs.1, hQ s t hst hs.2⟩

namespace Concurrent

/-- After a program has ended only the others move. -/
theorem ret_inv {a b : α} (h : Concurrent env step s (.ret a : Prog C R α) b u) :
    b = a ∧ ReflTransGen env s u := by
  generalize hp : (Prog.ret a : Prog C R α) = p at h
  induction h with
  | ret s a' =>
    obtain rfl := Prog.ret.inj hp
    exact ⟨rfl, .refl⟩
  | env hst _ ih =>
    obtain ⟨hb, hu⟩ := ih hp
    exact ⟨hb, .head hst hu⟩
  | call _ _ _ => cases hp

/-- A call takes its step from a state the others can have reached. -/
theorem call_inv {c : C} {k : R c → Prog C R α} {a : α}
    (h : Concurrent env step s (.call c k) a u) :
    ∃ t r t', ReflTransGen env s t ∧ step c t r t' ∧ Concurrent env step t' (k r) a u := by
  generalize hp : Prog.call c k = p at h
  induction h with
  | ret s a' => cases hp
  | env hst _ ih =>
    obtain ⟨t, r, t', ht, hstep, hrest⟩ := ih hp
    exact ⟨t, r, t', .head hst ht, hstep, hrest⟩
  | @call s t _ c' r _ _ hstep hrest _ =>
    cases hp
    exact ⟨s, r, t, .refl, hstep, hrest⟩

/-- The others may take any number of steps first. -/
theorem envs {p : Prog C R α} {a : α} (hst : ReflTransGen env s t)
    (h : Concurrent env step t p a u) : Concurrent env step s p a u := by
  induction hst using ReflTransGen.head_induction_on with
  | refl => exact h
  | head hs _ ih => exact .env hs ih

/-- The others may be allowed more. -/
theorem mono {env' : σ → σ → Prop} {p : Prog C R α} {a : α} (h : Concurrent env step s p a u)
    (henv : ∀ s t, env s t → env' s t) : Concurrent env' step s p a u := by
  induction h with
  | ret s a => exact .ret s a
  | env hst _ ih => exact .env (henv _ _ hst) ih
  | call hstep _ ih => exact .call hstep ih

/-- A run of a sequence is a run of its first half and then one of its second half. -/
theorem bind_inv {p : Prog C R α} {f : α → Prog C R β} {b : β}
    (h : Concurrent env step s (p >>= f) b u) :
    ∃ a t, Concurrent env step s p a t ∧ Concurrent env step t (f a) b u := by
  induction p generalizing s with
  | ret a => exact ⟨a, s, .ret s a, h⟩
  | call c k ih =>
    obtain ⟨t, r, t', hst, hstep, hrest⟩ := call_inv h
    obtain ⟨a, t'', hfirst, hsecond⟩ := ih r hrest
    exact ⟨a, t'', envs hst (.call hstep hfirst), hsecond⟩

/-- A run of an interpreted program is a run of the program, where a call is a run of the program
behind it. -/
theorem interp_inv {D : Type} {S : D → Type} {step : (d : D) → σ → S d → σ → Prop}
    {f : (c : C) → Prog D S (R c)} {p : Prog C R α} {a : α}
    (h : Concurrent env step s (p.interp f) a u) :
    Concurrent env (fun c s r t => Concurrent env step s (f c) r t) s p a u := by
  induction p generalizing s with
  | ret b =>
    obtain ⟨rfl, hsu⟩ := ret_inv h
    exact envs hsu (.ret u a)
  | call c k ih =>
    obtain ⟨r, t, hcall, hrest⟩ := bind_inv h
    exact .call hcall (ih r hrest)

end Concurrent

/-! ### Two programs -/

variable {D : Type} {S : D → Type}

/-- A run of two programs together, one call at a time; each has its own steps of the state. -/
inductive Together (left : (c : C) → σ → R c → σ → Prop) (right : (d : D) → σ → S d → σ → Prop) :
    σ → Prog C R α → Prog D S β → α → β → σ → Prop where
  | ret (s : σ) (a : α) (b : β) : Together left right s (.ret a) (.ret b) a b s
  | left {s t u : σ} {c : C} {r : R c} {k : R c → Prog C R α} {q : Prog D S β} {a : α} {b : β} :
      left c s r t → Together left right t (k r) q a b u →
        Together left right s (.call c k) q a b u
  | right {s t u : σ} {d : D} {r : S d} {p : Prog C R α} {k : S d → Prog D S β} {a : α} {b : β} :
      right d s r t → Together left right t p (k r) a b u →
        Together left right s p (.call d k) a b u

/-- The steps of a program's calls. -/
def Steps (step : (c : C) → σ → R c → σ → Prop) (s t : σ) : Prop := ∃ c r, step c s r t

namespace Together

variable {left : (c : C) → σ → R c → σ → Prop} {right : (d : D) → σ → S d → σ → Prop}
  {p : Prog C R α} {q : Prog D S β} {a : α} {b : β}

/-- For the first program the other is one of the others. -/
theorem first (h : Together left right s p q a b u) :
    Concurrent (Steps right) left s p a u := by
  induction h with
  | ret s a b => exact .ret s a
  | left hstep _ ih => exact .call hstep ih
  | right hstep _ ih => exact .env ⟨_, _, hstep⟩ ih

/-- And so it is for the second. -/
theorem second (h : Together left right s p q a b u) :
    Concurrent (Steps left) right s q b u := by
  induction h with
  | ret s a b => exact .ret s b
  | left hstep _ ih => exact .env ⟨_, _, hstep⟩ ih
  | right hstep _ ih => exact .call hstep ih

end Together

/-! ### Triples -/

/-- From every state of `P` the program ends as `Q` says. -/
def Ensures (env : σ → σ → Prop) (step : (c : C) → σ → R c → σ → Prop) (P : σ → Prop)
    (p : Prog C R α) (Q : α → σ → Prop) : Prop :=
  ∀ s a u, P s → Concurrent env step s p a u → Q a u

/-- Runs of programs for the elements of a list, one after another.  `P` says of each what it has
done between the state that it starts in and the one that it ends in. -/
inductive Each (env : σ → σ → Prop) (step : (c : C) → σ → R c → σ → Prop) (f : ι → Prog C R β)
    (P : ι → σ → β → σ → Prop) : σ → List ι → List β → σ → Prop where
  /-- The others may go on in the end. -/
  | nil {s t : σ} : ReflTransGen env s t → Each env step f P s [] [] t
  | cons {s t u : σ} {i : ι} {l : List ι} {b : β} {bs : List β} :
      Concurrent env step s (f i) b t → P i s b t → Each env step f P t l bs u →
        Each env step f P s (i :: l) (b :: bs) u

theorem Each.trans {f : ι → Prog C R β} {P : ι → σ → β → σ → Prop} {l : List ι} {bs : List β}
    (h : Each env step f P s l bs t) (htu : ReflTransGen env t u) : Each env step f P s l bs u := by
  induction h with
  | nil hst => exact .nil (hst.trans htu)
  | cons hfirst hP _ ih => exact .cons hfirst hP (ih htu)

namespace Ensures

variable {P P' : σ → Prop} {Q Q' : α → σ → Prop} {p : Prog C R α}

theorem ret {a : α} (hQ : Stable env (Q a)) (h : ∀ s, P s → Q a s) :
    Ensures env step P (.ret a) Q := by
  intro s b u hs hrun
  obtain ⟨rfl, hsu⟩ := hrun.ret_inv
  exact hQ.of_reflTransGen hsu (h s hs)

/-- A call, and what follows each of its answers. -/
theorem call {c : C} {k : R c → Prog C R α} {M : R c → σ → Prop} (hP : Stable env P)
    (hstep : ∀ s r t, P s → step c s r t → M r t) (hk : ∀ r, Ensures env step (M r) (k r) Q) :
    Ensures env step P (.call c k) Q := by
  intro s a u hs hrun
  obtain ⟨t, r, t', hst, hcall, hrest⟩ := hrun.call_inv
  exact hk r t' a u (hstep t r t' (hP.of_reflTransGen hst hs) hcall) hrest

theorem bind {M : β → σ → Prop} {q : Prog C R β} {f : β → Prog C R α}
    (hq : Ensures env step P q M) (hf : ∀ b, Ensures env step (M b) (f b) Q) :
    Ensures env step P (q >>= f) Q := by
  intro s a u hs hrun
  obtain ⟨b, t, hfirst, hsecond⟩ := hrun.bind_inv
  exact hf b t a u (hq s b t hs hfirst) hsecond

theorem mono (hp : Ensures env step P p Q) (hpre : ∀ s, P' s → P s)
    (hpost : ∀ a s, Q a s → Q' a s) : Ensures env step P' p Q' :=
  fun s a u hs hrun => hpost a u (hp s a u (hpre s hs) hrun)

/-- What each of them has done between its own start and end, programs for the elements of a list
have done one after another. -/
theorem each {f : ι → Prog C R β} {P : ι → σ → β → σ → Prop}
    (hf : ∀ i s, Ensures env step (· = s) (f i) (P i s)) (l : List ι) {s u : σ} {bs : List β}
    (hrun : Concurrent env step s (l.mapM f) bs u) : Each env step f P s l bs u := by
  induction l generalizing s u bs with
  | nil =>
    rw [List.mapM_nil] at hrun
    obtain ⟨rfl, hsu⟩ := hrun.ret_inv
    exact .nil hsu
  | cons i l ih =>
    rw [List.mapM_cons] at hrun
    obtain ⟨b, t, hfirst, hrest⟩ := hrun.bind_inv
    obtain ⟨bs', t', hothers, hend⟩ := hrest.bind_inv
    obtain ⟨rfl, htu⟩ := hend.ret_inv
    exact .cons hfirst (hf i s s b t rfl hfirst) (.trans (ih hothers) htu)

/-- What each program of a list keeps, with what was done and returned so far, all of them keep. -/
theorem mapM {f : ι → Prog C R β} {I : List ι → List β → σ → Prop}
    (hI : ∀ tried done, Stable env (I tried done))
    (hf : ∀ tried done i,
      Ensures env step (I tried done) (f i) fun b => I (tried ++ [i]) (done ++ [b]))
    (l : List ι) : Ensures env step (I [] []) (l.mapM f) (I l) := by
  suffices h : ∀ tried done, Ensures env step (I tried done) (l.mapM f) fun bs =>
      I (tried ++ l) (done ++ bs) from h [] []
  induction l with
  | nil =>
    intro tried done
    rw [List.mapM_nil]
    refine ret (hI _ _) fun s hs => ?_
    rwa [List.append_nil, List.append_nil]
  | cons i l ih =>
    intro tried done
    rw [List.mapM_cons]
    refine bind (hf tried done i) fun b => bind (ih (tried ++ [i]) (done ++ [b])) fun bs => ?_
    refine ret (hI _ _) fun s hs => ?_
    rwa [List.append_assoc, List.append_assoc, List.singleton_append, List.singleton_append] at hs

end Ensures

/-! ### Programs that may fail -/

variable {ε : Type}

/-- From every state of `P` the program returns something as `Q` says, or fails as `E` says. -/
def EnsuresE (env : σ → σ → Prop) (step : (c : C) → σ → R c → σ → Prop) (P : σ → Prop)
    (p : ExceptT ε (Prog C R) α) (Q : α → σ → Prop) (E : ε → σ → Prop) : Prop :=
  ∀ s u, P s → (∀ a, Concurrent env step s p.run (.ok a) u → Q a u) ∧
    ∀ e, Concurrent env step s p.run (.error e) u → E e u

namespace EnsuresE

variable {P : σ → Prop} {Q : α → σ → Prop} {E : ε → σ → Prop} {p : ExceptT ε (Prog C R) α}

theorem pure {a : α} (hQ : Stable env (Q a)) (h : ∀ s, P s → Q a s) :
    EnsuresE env step P (pure a : ExceptT ε (Prog C R) α) Q E := by
  intro s u hs
  refine ⟨fun b hrun => ?_, fun e hrun => ?_⟩
  · obtain ⟨hb, hsu⟩ := Concurrent.ret_inv hrun
    obtain rfl := Except.ok.inj hb
    exact hQ.of_reflTransGen hsu (h s hs)
  · cases (Concurrent.ret_inv hrun).1

theorem throw {e : ε} (hE : Stable env (E e)) (h : ∀ s, P s → E e s) :
    EnsuresE env step P (throw e : ExceptT ε (Prog C R) α) Q E := by
  intro s u hs
  refine ⟨fun b hrun => ?_, fun e' hrun => ?_⟩
  · cases (Concurrent.ret_inv hrun).1
  · obtain ⟨he, hsu⟩ := Concurrent.ret_inv hrun
    obtain rfl := Except.error.inj he
    exact hE.of_reflTransGen hsu (h s hs)

theorem bind {M : β → σ → Prop} {q : ExceptT ε (Prog C R) β} {f : β → ExceptT ε (Prog C R) α}
    (hE : ∀ e, Stable env (E e)) (hq : EnsuresE env step P q M E)
    (hf : ∀ b, EnsuresE env step (M b) (f b) Q E) : EnsuresE env step P (q >>= f) Q E := by
  intro s u hs
  have hsplit : ∀ r, Concurrent env step s (q >>= f).run r u →
      (∃ e t, r = .error e ∧ E e t ∧ ReflTransGen env t u) ∨
      ∃ b t, M b t ∧ Concurrent env step t (f b).run r u := by
    intro r hrun
    rw [ExceptT.run_bind] at hrun
    obtain ⟨x, t, hfirst, hsecond⟩ := Concurrent.bind_inv hrun
    cases x with
    | error e =>
      obtain ⟨rfl, htu⟩ := Concurrent.ret_inv hsecond
      exact .inl ⟨e, t, rfl, (hq s t hs).2 e hfirst, htu⟩
    | ok b => exact .inr ⟨b, t, (hq s t hs).1 b hfirst, hsecond⟩
  refine ⟨fun a hrun => ?_, fun e hrun => ?_⟩
  · rcases hsplit _ hrun with ⟨_, _, hr, -⟩ | ⟨b, t, ht, hrest⟩
    · cases hr
    · exact (hf b t u ht).1 a hrest
  · rcases hsplit _ hrun with ⟨e', t, hr, ht, htu⟩ | ⟨b, t, ht, hrest⟩
    · obtain rfl := Except.error.inj hr
      exact (hE e).of_reflTransGen htu ht
    · exact (hf b t u ht).2 e hrest

/-- A call, and what is made of its answer. -/
theorem lift {c : C} {g : R c → Except ε α} (hP : Stable env P) (hQ : ∀ a, Stable env (Q a))
    (hE : ∀ e, Stable env (E e))
    (hstep : ∀ s r t, P s → step c s r t →
      (∀ a, g r = .ok a → Q a t) ∧ ∀ e, g r = .error e → E e t) :
    EnsuresE env step P (ExceptT.mk (g <$> (Prog.lift c : Prog C R (R c)))) Q E := by
  intro s u hs
  have hcalled : ∀ x, Concurrent env step s (g <$> (Prog.lift c : Prog C R (R c))) x u →
      ∃ r t, x = g r ∧ ReflTransGen env t u ∧
        (∀ a, g r = .ok a → Q a t) ∧ ∀ e, g r = .error e → E e t := by
    intro x hrun
    obtain ⟨t, r, t', hst, hcall, hrest⟩ := Concurrent.call_inv hrun
    obtain ⟨rfl, htu⟩ := Concurrent.ret_inv hrest
    exact ⟨r, t', rfl, htu, hstep t r t' (hP.of_reflTransGen hst hs) hcall⟩
  refine ⟨fun a hrun => ?_, fun e hrun => ?_⟩
  · obtain ⟨r, t, hr, htu, hok, -⟩ := hcalled _ hrun
    exact (hQ a).of_reflTransGen htu (hok a hr.symm)
  · obtain ⟨r, t, hr, htu, -, herror⟩ := hcalled _ hrun
    exact (hE e).of_reflTransGen htu (herror e hr.symm)

/-- What is known of the state that a program begins in may be used by name. -/
theorem of_state {G : σ → σ → Prop} (hrefl : ∀ s, P s → G s s)
    (hp : ∀ s, P s → EnsuresE env step (G s) p Q E) : EnsuresE env step P p Q E :=
  fun s u hs => hp s hs s u (hrefl s hs)

/-- What every round of a loop keeps. -/
theorem foldlM {f : β → ι → ExceptT ε (Prog C R) β} {I : β → σ → Prop}
    (hI : ∀ b, Stable env (I b)) (hE : ∀ e, Stable env (E e)) (l : List ι)
    (hf : ∀ i ∈ l, ∀ b, EnsuresE env step (I b) (f b i) I E) (b : β) :
    EnsuresE env step (I b) (l.foldlM f b) I E := by
  induction l generalizing b with
  | nil => exact .pure (hI b) fun _ hs => hs
  | cons i l ih =>
    rw [List.foldlM_cons]
    exact .bind hE (hf i List.mem_cons_self b) fun b' =>
      ih (fun j hj => hf j (List.mem_cons_of_mem i hj)) b'

/-- What every round keeps with the rounds that have been made. -/
theorem forM {f : ι → ExceptT ε (Prog C R) Unit} {I : List ι → σ → Prop}
    (hI : ∀ done, Stable env (I done)) (hE : ∀ e, Stable env (E e)) (l : List ι)
    (hf : ∀ done i, done ++ [i] <+: l →
      EnsuresE env step (I done) (f i) (fun _ => I (done ++ [i])) E) :
    EnsuresE env step (I []) (ForM.forM l f) (fun _ => I l) E := by
  suffices h : ∀ done rest, done ++ rest = l →
      EnsuresE env step (I done) (ForM.forM rest f) (fun _ => I l) E from h [] l rfl
  intro done rest hl
  induction rest generalizing done with
  | nil =>
    rw [List.append_nil] at hl
    subst hl
    exact .pure (hI _) fun _ hs => hs
  | cons i rest ih =>
    have hsplit : done ++ [i] ++ rest = l := by rw [List.append_assoc, List.singleton_append, hl]
    rw [List.forM_cons]
    exact .bind hE (hf done i ⟨rest, hsplit⟩) fun _ => ih (done ++ [i]) hsplit

end EnsuresE

end Interaction
