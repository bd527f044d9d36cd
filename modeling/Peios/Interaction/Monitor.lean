import Peios.Interaction.Path

/-!
# Monitors

A `Monitor` watches the calls of a program and what they are answered: it keeps a state of its own,
and reports what it sees.  `Upholds` is a Hoare logic over that state: from `s` every report
satisfies `P`, whoever answers, and a program that returns leaves the monitor as `post` says.

`interpE` is `Prog.interp` for programs that may fail, with the equations that carry it through
their construction.
-/

namespace Interaction

variable {C : Type} {R : C → Type} {α β ε S O : Type}

/-- What watches calls and their answers. -/
structure Monitor (C : Type) (R : C → Type) (S O : Type) where
  /-- What the monitor knows after an event. -/
  next : S → Event C R → S
  /-- What it reports of an event. -/
  report : S → Event C R → List O

namespace Monitor

variable (M : Monitor C R S O)

/-- What the monitor knows after a run. -/
def after (s : S) (evs : List (Event C R)) : S := evs.foldl M.next s

/-- What it has reported of a run. -/
def reports : S → List (Event C R) → List O
  | _, [] => []
  | s, ev :: evs => M.report s ev ++ reports (M.next s ev) evs

@[simp] theorem reports_nil (s : S) : M.reports s [] = [] := rfl

theorem reports_singleton (s : S) (ev : Event C R) : M.reports s [ev] = M.report s ev := by
  rw [reports, reports_nil, List.append_nil]

theorem after_append (s : S) (evs₁ evs₂ : List (Event C R)) :
    M.after s (evs₁ ++ evs₂) = M.after (M.after s evs₁) evs₂ := List.foldl_append

theorem reports_append (s : S) (evs₁ evs₂ : List (Event C R)) :
    M.reports s (evs₁ ++ evs₂) = M.reports s evs₁ ++ M.reports (M.after s evs₁) evs₂ := by
  induction evs₁ generalizing s with
  | nil => rfl
  | cons ev evs₁ ih =>
    rw [List.cons_append, reports, ih, reports, List.append_assoc]
    rfl

/-- From `s`, whoever answers, every report on the program satisfies `P`, and if it returns the
monitor is left as `post` says. -/
def Upholds (P : O → Prop) (s : S) (p : ExceptT ε (Prog C R) α) (post : α → S → Prop) : Prop :=
  ∀ evs r, PathE p evs r →
    (∀ o ∈ M.reports s evs, P o) ∧ ∀ a, r = .ok a → post a (M.after s evs)

namespace Upholds

variable {M} {P : O → Prop} {s : S} {p : ExceptT ε (Prog C R) α} {post : α → S → Prop}

/-- Every run against a handler is upheld. -/
theorem reports_events {σ : Type} (hp : M.Upholds P s p post) (h : Handler C R σ) (t : σ) :
    ∀ o ∈ M.reports s (Prog.events h p t), P o :=
  (hp _ _ (Path.run h p.run t)).1

/-- A program that has ended. -/
theorem ended {r : Except ε α} (hr : ∀ a, r = .ok a → post a s) :
    M.Upholds P s (ExceptT.mk (Prog.ret r : Prog C R (Except ε α))) post := by
  intro evs r h
  obtain ⟨rfl, rfl⟩ := Path.ret_inv h
  exact ⟨by simp, hr⟩

theorem pure {a : α} (ha : post a s) : M.Upholds P s (pure a : ExceptT ε (Prog C R) α) post := by
  refine ended fun b hb => ?_
  obtain rfl := Except.ok.inj hb
  exact ha

theorem throw (e : ε) : M.Upholds P s (throw e : ExceptT ε (Prog C R) α) post :=
  ended fun _ hb => nomatch hb

/-- A call, whatever is then made of its answer. -/
theorem lift {c : C} {f : R c → Except ε α} (hP : ∀ r, ∀ o ∈ M.report s ⟨c, r⟩, P o)
    (hpost : ∀ r a, f r = .ok a → post a (M.next s ⟨c, r⟩)) :
    M.Upholds P s (ExceptT.mk (f <$> (Prog.lift c : Prog C R (R c)))) post := by
  intro evs r h
  have h : Path (Prog.lift c >>= fun a => Prog.ret (f a)) evs r := h
  obtain ⟨a, evs₁, evs₂, rfl, h₁, h₂⟩ := h.bind_inv
  obtain rfl := h₁.lift_inv
  obtain ⟨rfl, rfl⟩ := h₂.ret_inv
  rw [List.append_nil, reports_singleton]
  exact ⟨hP a, fun b hb => hpost a b hb⟩

theorem bind {f : α → ExceptT ε (Prog C R) β} {post' : β → S → Prop} (hp : M.Upholds P s p post)
    (hf : ∀ a s', post a s' → M.Upholds P s' (f a) post') : M.Upholds P s (p >>= f) post' := by
  intro evs r h
  rcases h.bind_inv with ⟨e, h₁, rfl⟩ | ⟨a, evs₁, evs₂, rfl, h₁, h₂⟩
  · exact ⟨(hp _ _ h₁).1, fun b hb => nomatch hb⟩
  · obtain ⟨hP, ha⟩ := hp _ _ h₁
    obtain ⟨hP', hb⟩ := hf a _ (ha a rfl) _ _ h₂
    rw [reports_append, after_append]
    exact ⟨fun o ho => (List.mem_append.mp ho).elim (hP o) (hP' o), hb⟩

theorem mono {post' : α → S → Prop} (hp : M.Upholds P s p post)
    (hpost : ∀ a s', post a s' → post' a s') : M.Upholds P s p post' := by
  intro evs r h
  obtain ⟨hP, ha⟩ := hp _ _ h
  exact ⟨hP, fun a hr => hpost _ _ (ha a hr)⟩

end Upholds

end Monitor

/-! ### Interpretation -/

section InterpE

variable {D : Type} {Q : D → Type} (f : (c : C) → Prog D Q (R c))

/-- Replace every call of a program that may fail by a program over another signature. -/
def interpE (p : ExceptT ε (Prog C R) α) : ExceptT ε (Prog D Q) α := ExceptT.mk (p.run.interp f)

/-- A call becomes the program behind it. -/
theorem interpE_lift (c : C) (g : R c → Except ε α) :
    interpE f (ExceptT.mk (g <$> (Prog.lift c : Prog C R (R c)))) = ExceptT.mk (g <$> f c) := by
  rw [map_eq_pure_bind, map_eq_pure_bind]
  rfl

theorem interpE_bind (p : ExceptT ε (Prog C R) α) (g : α → ExceptT ε (Prog C R) β) :
    interpE f (p >>= g) = interpE f p >>= fun a => interpE f (g a) := by
  refine ExceptT.ext ?_
  rw [interpE, ExceptT.run_mk, ExceptT.run_bind, Prog.interp_bind, ExceptT.run_bind]
  refine congrArg (_ >>= ·) (funext fun r => ?_)
  cases r <;> rfl

end InterpE

end Interaction
