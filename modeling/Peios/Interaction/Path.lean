import Peios.Interaction.Prog

/-!
# What a program may do

`Path p evs a` says that `p` returns `a` when its calls are answered as `evs` records, whoever
answers them: the runs against every handler are paths (`path_run`), so what holds of all paths
holds in every environment.

Two properties are about all paths of a program that may fail:

* `CallsOnly P p`: every call it makes satisfies `P`;
* `Propagates embed p`: a call that fails is the last one, and its error is what the program
  returns.

Both hold of a program that is `Built` of such calls, and that can be read off how it is written.
-/

namespace Interaction

variable {C : Type} {R : C → Type} {α β ε : Type}

/-- The program returns `a` when its calls are answered as the events say. -/
inductive Path : Prog C R α → List (Event C R) → α → Prop where
  | ret (a : α) : Path (.ret a) [] a
  | call {c : C} {k : R c → Prog C R α} (r : R c) {evs : List (Event C R)} {a : α} :
      Path (k r) evs a → Path (.call c k) (⟨c, r⟩ :: evs) a

namespace Path

variable {σ : Type} {p : Prog C R α} {evs : List (Event C R)}

/-- A run against a handler is a path. -/
theorem run (h : Handler C R σ) (p : Prog C R α) (s : σ) : Path p (p.trace h s) (p.run h s).1 := by
  induction p generalizing s with
  | ret a => exact .ret a
  | call c k ih => exact .call _ (ih _ _)

theorem ret_inv {a b : α} (h : Path (.ret a : Prog C R α) evs b) : evs = [] ∧ b = a := by
  cases h
  exact ⟨rfl, rfl⟩

theorem lift_inv {c : C} {r : R c} (h : Path (.lift c : Prog C R (R c)) evs r) :
    evs = [⟨c, r⟩] := by
  cases h with
  | call r h =>
    obtain ⟨rfl, rfl⟩ := ret_inv h
    rfl

/-- A path of a sequence is a path of its first half and then one of its second half. -/
theorem bind_inv {f : α → Prog C R β} {b : β} (h : Path (p >>= f) evs b) :
    ∃ a evs₁ evs₂, evs = evs₁ ++ evs₂ ∧ Path p evs₁ a ∧ Path (f a) evs₂ b := by
  induction p generalizing evs with
  | ret a => exact ⟨a, [], evs, rfl, .ret a, h⟩
  | call c k ih =>
    cases h with
    | call r h =>
      obtain ⟨a, evs₁, evs₂, rfl, h₁, h₂⟩ := ih _ h
      exact ⟨a, ⟨c, r⟩ :: evs₁, evs₂, rfl, .call r h₁, h₂⟩

end Path

/-! ### Programs that may fail -/

/-- A path of a program that may fail. -/
abbrev PathE (p : ExceptT ε (Prog C R) α) (evs : List (Event C R)) (r : Except ε α) : Prop :=
  Path p.run evs r

namespace PathE

variable {evs : List (Event C R)}

theorem pure_inv {a : α} {r : Except ε α}
    (h : PathE (pure a : ExceptT ε (Prog C R) α) evs r) : evs = [] ∧ r = .ok a := Path.ret_inv h

theorem throw_inv {e : ε} {r : Except ε α}
    (h : PathE (throw e : ExceptT ε (Prog C R) α) evs r) : evs = [] ∧ r = .error e :=
  Path.ret_inv h

/-- A path of a sequence ends with the first half if that fails, and otherwise goes on with the
second. -/
theorem bind_inv {p : ExceptT ε (Prog C R) α} {f : α → ExceptT ε (Prog C R) β} {r : Except ε β}
    (h : PathE (p >>= f) evs r) :
    (∃ e, PathE p evs (.error e) ∧ r = .error e) ∨
    ∃ a evs₁ evs₂, evs = evs₁ ++ evs₂ ∧ PathE p evs₁ (.ok a) ∧ PathE (f a) evs₂ r := by
  rw [PathE, ExceptT.run_bind] at h
  obtain ⟨a, evs₁, evs₂, rfl, h₁, h₂⟩ := Path.bind_inv h
  cases a with
  | error e =>
    obtain ⟨rfl, rfl⟩ := Path.ret_inv h₂
    exact .inl ⟨e, by rwa [List.append_nil], rfl⟩
  | ok a => exact .inr ⟨a, evs₁, evs₂, rfl, h₁, h₂⟩

/-- A path that succeeds goes through both. -/
theorem bind_inv_ok {p : ExceptT ε (Prog C R) α} {f : α → ExceptT ε (Prog C R) β} {b : β}
    (h : PathE (p >>= f) evs (.ok b)) :
    ∃ a evs₁ evs₂, evs = evs₁ ++ evs₂ ∧ PathE p evs₁ (.ok a) ∧ PathE (f a) evs₂ (.ok b) := by
  rcases h.bind_inv with ⟨_, _, he⟩ | h
  · cases he
  · exact h

end PathE

/-! ### Which calls a program makes -/

/-- Every call the program makes satisfies `P`. -/
def CallsOnly (P : C → Prop) (p : ExceptT ε (Prog C R) α) : Prop :=
  ∀ evs r, PathE p evs r → ∀ ev ∈ evs, P ev.1

namespace CallsOnly

variable {P : C → Prop}

theorem pure (a : α) : CallsOnly P (pure a : ExceptT ε (Prog C R) α) := by
  intro evs r h
  obtain ⟨rfl, _⟩ := h.pure_inv
  simp

theorem throw (e : ε) : CallsOnly P (throw e : ExceptT ε (Prog C R) α) := by
  intro evs r h
  obtain ⟨rfl, _⟩ := h.throw_inv
  simp

/-- A call, whatever is then made of its answer. -/
theorem lift {c : C} (hc : P c) (f : R c → Except ε α) :
    CallsOnly P (ExceptT.mk (f <$> (Prog.lift c : Prog C R (R c)))) := by
  intro evs r h
  have h : Path (Prog.lift c >>= fun a => Prog.ret (f a)) evs r := h
  obtain ⟨a, evs₁, evs₂, rfl, h₁, h₂⟩ := h.bind_inv
  obtain rfl := h₁.lift_inv
  obtain ⟨rfl, _⟩ := h₂.ret_inv
  simpa using hc

theorem bind {p : ExceptT ε (Prog C R) α} {f : α → ExceptT ε (Prog C R) β}
    (hp : CallsOnly P p) (hf : ∀ a, CallsOnly P (f a)) : CallsOnly P (p >>= f) := by
  intro evs r h ev hev
  rcases h.bind_inv with ⟨e, h₁, _⟩ | ⟨a, evs₁, evs₂, rfl, h₁, h₂⟩
  · exact hp _ _ h₁ ev hev
  · rcases List.mem_append.mp hev with hev | hev
    · exact hp _ _ h₁ ev hev
    · exact hf a _ _ h₂ ev hev

theorem forM {ι : Type} {f : ι → ExceptT ε (Prog C R) Unit} (l : List ι)
    (hf : ∀ i ∈ l, CallsOnly P (f i)) : CallsOnly P (ForM.forM l f) := by
  induction l with
  | nil => exact .pure ()
  | cons i l ih =>
    rw [List.forM_cons]
    exact (hf i List.mem_cons_self).bind fun _ => ih fun j hj => hf j (List.mem_cons_of_mem i hj)

end CallsOnly

/-! ### Errors are returned -/

section Propagates

variable {ε₀ : Type} {V : C → Type} {embed : ε₀ → ε}

/-- The error an event ended with. -/
def Event.failure (ev : Event C fun c => Except ε₀ (V c)) : Option ε₀ :=
  match ev.2 with
  | .ok _ => none
  | .error e => some e

/-- No event failed, or only the last one did and its error is the result. -/
def FailsLast (embed : ε₀ → ε) (evs : List (Event C fun c => Except ε₀ (V c)))
    (r : Except ε α) : Prop :=
  (∀ ev ∈ evs, ev.failure = none) ∨
  ∃ evs' ev e, evs = evs' ++ [ev] ∧ (∀ ev ∈ evs', ev.failure = none) ∧ ev.failure = some e ∧
    r = .error (embed e)

/-- A call that fails is the last one the program makes, and its error the program's result. -/
def Propagates (embed : ε₀ → ε) (p : ExceptT ε (Prog C fun c => Except ε₀ (V c)) α) : Prop :=
  ∀ evs r, PathE p evs r → FailsLast embed evs r

/-- A program that succeeds has seen no failure. -/
theorem FailsLast.of_ok {evs : List (Event C fun c => Except ε₀ (V c))} {a : α}
    (h : FailsLast embed evs (.ok a : Except ε α)) : ∀ ev ∈ evs, ev.failure = none := by
  rcases h with h | ⟨_, _, _, _, _, _, hr⟩
  · exact h
  · cases hr

namespace Propagates

theorem pure (a : α) :
    Propagates embed (pure a : ExceptT ε (Prog C fun c => Except ε₀ (V c)) α) := by
  intro evs r h
  obtain ⟨rfl, _⟩ := h.pure_inv
  exact .inl (by simp)

theorem throw (e : ε) :
    Propagates embed (throw e : ExceptT ε (Prog C fun c => Except ε₀ (V c)) α) := by
  intro evs r h
  obtain ⟨rfl, _⟩ := h.throw_inv
  exact .inl (by simp)

/-- A call whose error is the result. -/
theorem lift (c : C) (f : Except ε₀ (V c) → Except ε α)
    (hf : ∀ e, f (.error e) = .error (embed e)) :
    Propagates embed (ExceptT.mk
      (f <$> (Prog.lift c : Prog C (fun c => Except ε₀ (V c)) (Except ε₀ (V c))))) := by
  intro evs r h
  have h : Path (Prog.lift c >>= fun a => Prog.ret (f a)) evs r := h
  obtain ⟨a, evs₁, evs₂, rfl, h₁, h₂⟩ := h.bind_inv
  obtain rfl := h₁.lift_inv
  obtain ⟨rfl, rfl⟩ := h₂.ret_inv
  cases a with
  | ok v => exact .inl (by simp [Event.failure])
  | error e => exact .inr ⟨[], _, e, rfl, by simp, rfl, hf e⟩

theorem bind {p : ExceptT ε (Prog C fun c => Except ε₀ (V c)) α}
    {f : α → ExceptT ε (Prog C fun c => Except ε₀ (V c)) β}
    (hp : Propagates embed p) (hf : ∀ a, Propagates embed (f a)) :
    Propagates embed (p >>= f) := by
  intro evs r h
  -- the second half runs only when nothing failed in the first
  rcases h.bind_inv with ⟨e, h₁, rfl⟩ | ⟨a, evs₁, evs₂, rfl, h₁, h₂⟩
  · rcases hp _ _ h₁ with hok | ⟨evs', ev, e', rfl, hok, hev, he⟩
    · exact .inl hok
    · exact .inr ⟨evs', ev, e', rfl, hok, hev, by cases he; rfl⟩
  · have hok₁ := (hp _ _ h₁).of_ok
    rcases hf a _ _ h₂ with hok | ⟨evs', ev, e, rfl, hok, hev, rfl⟩
    · refine .inl fun ev hev => ?_
      exact (List.mem_append.mp hev).elim (hok₁ ev) (hok ev)
    · refine .inr ⟨evs₁ ++ evs', ev, e, (List.append_assoc ..).symm, fun ev hev => ?_, hev, rfl⟩
      exact (List.mem_append.mp hev).elim (hok₁ ev) (hok ev)

end Propagates

/-! ### Programs built of calls -/

/-- The program is put together from calls that satisfy `P` and whose errors it returns. -/
inductive Built (embed : ε₀ → ε) (P : C → Prop) :
    {α : Type} → ExceptT ε (Prog C fun c => Except ε₀ (V c)) α → Prop where
  | pure {α : Type} (a : α) : Built embed P (pure a)
  | throw {α : Type} (e : ε) : Built embed P (throw e : ExceptT ε _ α)
  /-- A call, and what is made of its answer. -/
  | lift {α : Type} {c : C} (hc : P c) (f : Except ε₀ (V c) → Except ε α)
      (hf : ∀ e, f (.error e) = .error (embed e)) :
      Built embed P (ExceptT.mk
        (f <$> (Prog.lift c : Prog C (fun c => Except ε₀ (V c)) (Except ε₀ (V c)))))
  | bind {α β : Type} {p : ExceptT ε (Prog C fun c => Except ε₀ (V c)) α}
      {f : α → ExceptT ε (Prog C fun c => Except ε₀ (V c)) β} :
      Built embed P p → (∀ a, Built embed P (f a)) → Built embed P (p >>= f)

namespace Built

variable {P : C → Prop} {p : ExceptT ε (Prog C fun c => Except ε₀ (V c)) α}

/-- It makes no other calls. -/
theorem callsOnly (hp : Built embed P p) : CallsOnly P p := by
  induction hp with
  | pure a => exact .pure a
  | throw e => exact .throw e
  | lift hc f _ => exact CallsOnly.lift (R := fun c => Except ε₀ (V c)) hc f
  | bind _ _ ihp ihf => exact ihp.bind ihf

/-- A call that fails ends it. -/
theorem propagates (hp : Built embed P p) : Propagates embed p := by
  induction hp with
  | pure a => exact .pure a
  | throw e => exact .throw e
  | lift _ f hf => exact .lift _ f hf
  | bind _ _ ihp ihf => exact ihp.bind ihf

theorem mono {Q : C → Prop} (hPQ : ∀ c, P c → Q c) (hp : Built embed P p) : Built embed Q p := by
  induction hp with
  | pure a => exact .pure a
  | throw e => exact .throw e
  | lift hc f hf => exact .lift (hPQ _ hc) f hf
  | bind _ _ ihp ihf => exact .bind ihp ihf

theorem foldlM {f : β → α → ExceptT ε (Prog C fun c => Except ε₀ (V c)) β}
    (hf : ∀ b a, Built embed P (f b a)) (l : List α) (b : β) : Built embed P (l.foldlM f b) := by
  induction l generalizing b with
  | nil => exact .pure b
  | cons a l ih =>
    rw [List.foldlM_cons]
    exact .bind (hf b a) ih

theorem forM {f : α → ExceptT ε (Prog C fun c => Except ε₀ (V c)) Unit}
    (hf : ∀ a, Built embed P (f a)) (l : List α) : Built embed P (ForM.forM l f) := by
  induction l with
  | nil => exact .pure ()
  | cons a l ih =>
    rw [List.forM_cons]
    exact .bind (hf a) fun _ => ih

end Built

end Propagates

end Interaction
