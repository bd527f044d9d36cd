import Peios.Interaction.Concurrent
import Peios.Interaction.Path

/-!
# Two programs that share a world

Two programs run `Together`, in a world that they share; what else a call reads or changes is its
program's own.  When the second program only reads, the first runs as it does alone
(`Together.solo`).  When besides only the last call of the first changes the world, then for the
second the world turns at most once, from what it was at first into what it is in the end
(`Together.turns`).
-/

namespace Interaction

variable {C D : Type} {R : C → Type} {S : D → Type} {α β W A B σ : Type}

/-- A world that two programs share, and what each has to itself. -/
structure Shared (W A B : Type) where
  world : W
  left : A
  right : B

/-- The steps of the first program's calls. -/
def leftStep (h : Handler C R (W × A)) (c : C) (s : Shared W A B) (r : R c) (t : Shared W A B) :
    Prop := h c (s.world, s.left) = (r, t.world, t.left) ∧ t.right = s.right

/-- The steps of the second program's calls. -/
def rightStep (h : Handler D S (W × B)) (d : D) (s : Shared W A B) (r : S d) (t : Shared W A B) :
    Prop := h d (s.world, s.right) = (r, t.world, t.right) ∧ t.left = s.left

/-- The steps of the calls of a program that has the state to itself. -/
def Handler.step (h : Handler C R σ) (c : C) (s : σ) (r : R c) (t : σ) : Prop := h c s = (r, t)

/-- The call leaves the world as it is. -/
def Keeps (h : Handler C R (W × A)) (c : C) : Prop := ∀ w a, (h c (w, a)).2.1 = w

/-! ### Which calls a program makes -/

namespace Prog

/-- Every call of the program satisfies `P`. -/
def Only (P : C → Prop) : Prog C R α → Prop
  | .ret _ => True
  | .call c k => P c ∧ ∀ r, (k r).Only P

/-- Every call of the program but its last satisfies `P`. -/
def OnlyBefore (P : C → Prop) : Prog C R α → Prop
  | .ret _ => True
  | .call c k => (P c ∧ ∀ r, (k r).OnlyBefore P) ∨ ∀ r, ∃ a, k r = .ret a

variable {P : C → Prop} {Q : D → Prop} {p : Prog C R α}

theorem Only.mono {P' : C → Prop} (hp : p.Only P) (h : ∀ c, P c → P' c) : p.Only P' := by
  induction p with
  | ret a => trivial
  | call c k ih => exact ⟨h c hp.1, fun r => ih r (hp.2 r)⟩

theorem Only.bind {f : α → Prog C R β} (hp : p.Only P) (hf : ∀ a, (f a).Only P) :
    (p >>= f).Only P := by
  induction p with
  | ret a => exact hf a
  | call c k ih => exact ⟨hp.1, fun r => ih r (hp.2 r)⟩

theorem Only.mapM {ι : Type} {f : ι → Prog C R β} (hf : ∀ i, (f i).Only P) (l : List ι) :
    (l.mapM f).Only P := by
  induction l with
  | nil =>
    rw [List.mapM_nil]
    trivial
  | cons i l ih =>
    rw [List.mapM_cons]
    exact .bind (hf i) fun b => .bind ih fun bs => trivial

/-- An interpreted program makes the calls of the programs behind its calls. -/
theorem Only.interp {f : (c : C) → Prog D S (R c)} (hp : p.Only P) (hf : ∀ c, P c → (f c).Only Q) :
    (p.interp f).Only Q := by
  induction p with
  | ret a => trivial
  | call c k ih => exact .bind (hf c hp.1) fun r => ih r (hp.2 r)

/-- A program has a path when every call can be answered. -/
theorem exists_path [hR : ∀ c, Nonempty (R c)] (p : Prog C R α) : ∃ evs a, Path p evs a := by
  induction p with
  | ret a => exact ⟨[], a, .ret a⟩
  | call c k ih =>
    obtain ⟨r⟩ := hR c
    obtain ⟨evs, a, hpath⟩ := ih r
    exact ⟨_, a, .call r hpath⟩

/-- What is known of the calls on all paths of a program is known of its calls. -/
theorem only_of_path [hR : ∀ c, Nonempty (R c)]
    (h : ∀ evs a, Path p evs a → ∀ ev ∈ evs, P ev.1) : p.Only P := by
  induction p with
  | ret a => trivial
  | call c k ih =>
    constructor
    · obtain ⟨r⟩ := hR c
      obtain ⟨evs, a, hpath⟩ := exists_path (k r)
      exact h _ a (.call r hpath) ⟨c, r⟩ (List.mem_cons_self ..)
    · intro r
      exact ih r fun evs a hpath ev hev => h _ a (.call r hpath) ev (List.mem_cons_of_mem _ hev)

/-- After a program with such calls another may make one call more. -/
theorem OnlyBefore.bind {f : α → Prog C R β} (hp : p.Only P) (hf : ∀ a, (f a).OnlyBefore P) :
    (p >>= f).OnlyBefore P := by
  induction p with
  | ret a => exact hf a
  | call c k ih => exact .inl ⟨hp.1, fun r => ih r (hp.2 r)⟩

end Prog

/-! ### Runs -/

namespace Together

variable {h₁ : Handler C R (W × A)} {h₂ : Handler D S (W × B)} {s t u : Shared W A B}
  {p : Prog C R α} {q : Prog D S β} {a : α} {b : β}

/-- A call that keeps the world leaves it to the other program. -/
theorem world_of_left {c : C} {r : R c} (hc : Keeps h₁ c) (hstep : leftStep h₁ c s r t) :
    t.world = s.world := by
  have hkeeps := hc s.world s.left
  rw [hstep.1] at hkeeps
  exact hkeeps

theorem world_of_right {d : D} {r : S d} (hd : Keeps h₂ d) (hstep : rightStep h₂ d s r t) :
    t.world = s.world := by
  have hkeeps := hd s.world s.right
  rw [hstep.1] at hkeeps
  exact hkeeps

/-- Beside a program that only reads, another runs as it does alone. -/
theorem solo (hq : q.Only (Keeps h₂))
    (h : Together (leftStep h₁) (rightStep h₂) s p q a b u) :
    p.run h₁ (s.world, s.left) = (a, u.world, u.left) := by
  induction h with
  | ret s a b => rfl
  | left hstep _ ih =>
    rw [Prog.run_call, hstep.1]
    exact ih hq
  | right hstep _ ih =>
    have hrun := ih (hq.2 _)
    rwa [world_of_right hq.1 hstep, hstep.2] at hrun

/-- The world turns from one into another, and the program's own is left. -/
def Turns (w w' : W) (x y : W × B) : Prop := x.1 = w ∧ y = (w', x.2)

theorem world_of_ret (hq : q.Only (Keeps h₂))
    (h : Together (leftStep h₁) (rightStep h₂) s (.ret a) q a b u) : u.world = s.world :=
  (Prod.mk.inj (Prod.mk.inj (solo hq h)).2).1.symm

/-- **For a program that only reads the world turns at most once**, when only the last call of the
other program changes it. -/
theorem turns (hp : p.OnlyBefore (Keeps h₁)) (hq : q.Only (Keeps h₂))
    (h : Together (leftStep h₁) (rightStep h₂) s p q a b u) :
    Concurrent (Turns s.world u.world) h₂.step (s.world, s.right) q b (u.world, u.right) := by
  -- the world has not turned yet, or the first program has ended
  suffices hturns : ∀ w, (s.world = w ∨ ∃ a, p = .ret a) →
      Concurrent (Turns w u.world) h₂.step (s.world, s.right) q b (u.world, u.right) from
    hturns s.world (.inl rfl)
  induction h with
  | ret s a b => exact fun w _ => .ret _ b
  | @left s t u c r k q a b hstep hrest ih =>
    rintro w (hw | ⟨_, hret⟩)
    · rcases hp with ⟨hc, hk⟩ | hlast
      · have hworld := world_of_left hc hstep
        have hnext := ih (hk r) hq w (.inl (hworld.trans hw))
        rwa [hworld, hstep.2] at hnext
      · -- the last call, after which the world stays as it is
        obtain ⟨a', ha'⟩ := hlast r
        have hnext := ih (by rw [ha']; trivial) hq w (.inr ⟨a', ha'⟩)
        rw [ha'] at hrest
        have hend : a = a' := (Concurrent.ret_inv hrest.first).1
        rw [← hend] at hrest
        have hworld := world_of_ret hq hrest
        exact .env ⟨hw, by rw [hworld, hstep.2]⟩ hnext
    · cases hret
  | @right s t u d r p k a b hstep hrest ih =>
    intro w hw
    have hworld := world_of_right hq.1 hstep
    exact .call hstep.1 (ih hp (hq.2 r) w (by rwa [hworld]))

/-- The second program can run up to some point first. -/
theorem right_first {γ : Type} {f : β → Prog D S γ} {c : γ} (q : Prog D S β) (s : Shared W A B)
    (h : Together (leftStep h₁) (rightStep h₂)
      ⟨(q.run h₂ (s.world, s.right)).2.1, s.left, (q.run h₂ (s.world, s.right)).2.2⟩ p
      (f (q.run h₂ (s.world, s.right)).1) a c u) :
    Together (leftStep h₁) (rightStep h₂) s p (q >>= f) a c u := by
  induction q generalizing s with
  | ret b => exact h
  | call d k ih =>
    let t : Shared W A B :=
      ⟨(h₂ d (s.world, s.right)).2.1, s.left, (h₂ d (s.world, s.right)).2.2⟩
    have hstep : rightStep h₂ d s (h₂ d (s.world, s.right)).1 t := ⟨rfl, rfl⟩
    exact .right hstep (ih _ t h)

/-- Two programs can run one after the other. -/
theorem sequential (p : Prog C R α) (q : Prog D S β) (s : Shared W A B) :
    ∃ u, Together (leftStep h₁) (rightStep h₂) s p q (p.run h₁ (s.world, s.left)).1
      (q.run h₂ ((p.run h₁ (s.world, s.left)).2.1, s.right)).1 u := by
  induction p generalizing s with
  | ret a =>
    induction q generalizing s with
    | ret b => exact ⟨s, .ret s a b⟩
    | call d k ih =>
      let t : Shared W A B :=
        ⟨(h₂ d (s.world, s.right)).2.1, s.left, (h₂ d (s.world, s.right)).2.2⟩
      have hstep : rightStep h₂ d s (h₂ d (s.world, s.right)).1 t := ⟨rfl, rfl⟩
      obtain ⟨u, hu⟩ := ih _ t
      exact ⟨u, .right hstep hu⟩
  | call c k ih =>
    let t : Shared W A B :=
      ⟨(h₁ c (s.world, s.left)).2.1, (h₁ c (s.world, s.left)).2.2, s.right⟩
    have hstep : leftStep h₁ c s (h₁ c (s.world, s.left)).1 t := ⟨rfl, rfl⟩
    obtain ⟨u, hu⟩ := ih _ t
    exact ⟨u, .left hstep hu⟩

end Together

end Interaction
