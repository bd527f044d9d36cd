import Mathlib.Data.List.Nodup
import Mathlib.Logic.Relation
import Peios.Token.Token

/-!
# Correctness of `Impersonation`

A `Thread` is the kernel's idea of a thread's identity, beside the guards that are alive in it.
The kernel keeps one identity, and reverting clears it, so guards that overlap do not nest.
`Inv` is what relates the two: an adopted identity has a live guard, and live guards are active.

`identity_guarded` is the result: no adopted identity outlives its guard.
-/

namespace Peios.Token

open Interaction Prog

/-! ### The kernel -/

/-- An identity that is not the thread's own: the number of the call that adopted it, and the
token. -/
structure Adoption where
  call : Nat
  fd : Nat
  deriving DecidableEq, Repr

/-- What the kernel keeps of a thread. -/
structure Kernel where
  /-- The adopted identity; with none, the thread has its own. -/
  identity : Option Adoption
  /-- How many calls to impersonate there were. -/
  calls : Nat

/-- What the kernel answers: the `n`-th call to impersonate fails when `outcome n` says so, and then
changes nothing. -/
def kernel (outcome : Nat → Option Errno) : Handler ThreadCall ThreadReply Kernel
  | .impersonate fd, k =>
    match outcome k.calls with
    | some e => (.error e, { k with calls := k.calls + 1 })
    | none => (.ok (), { identity := some { call := k.calls, fd }, calls := k.calls + 1 })
  | .revert, k => (.ok (), { k with identity := none })

/-! ### Threads -/

/-- A guard in a thread: the call that it was returned for, and the token it adopted. -/
structure Guard where
  call : Nat
  token : Token
  guard : Impersonation
  deriving DecidableEq

/-- A thread. -/
structure Thread where
  kernel : Kernel
  /-- The guards that have not ended. -/
  live : List Guard
  /-- The calls of the guards that have. -/
  ended : List Nat
  /-- What the ends of guards called, each with the call that the guard was returned for. -/
  issued : List (Nat × ThreadCall)

namespace Thread

/-- A thread under its own identity. -/
def init : Thread :=
  { kernel := { identity := none, calls := 0 }, live := [], ended := [], issued := [] }

variable (outcome : Nat → Option Errno) (s : Thread)

/-- `impersonate_scoped`, which returns a guard if it succeeds. -/
def impersonates (t : Token) : Thread :=
  match t.impersonateScoped.run (Token.kernel outcome) s.kernel with
  | (.ok guard, k) =>
    { s with kernel := k, live := { call := s.kernel.calls, token := t, guard } :: s.live }
  | (.error _, k) => { s with kernel := k }

/-- The end of a guard, by the program that ends it. -/
def ends {α : Type} (g : Guard) (p : ThreadProg α) : Thread :=
  { kernel := (p.run (Token.kernel outcome) s.kernel).2
    live := s.live.erase g
    ended := g.call :: s.ended
    issued := s.issued ++ (p.calls (Token.kernel outcome) s.kernel).map (g.call, ·) }

/-- What a thread can do. -/
inductive Step : Thread → Thread → Prop where
  | impersonate (s : Thread) (t : Token) : Step s (s.impersonates outcome t)
  /-- `Impersonation::revert` takes the guard. -/
  | revert (s : Thread) (g : Guard) (hg : g ∈ s.live) : Step s (s.ends outcome g g.guard.revert)
  | drop (s : Thread) (g : Guard) (hg : g ∈ s.live) : Step s (s.ends outcome g g.guard.drop)

/-- A state that a thread can reach. -/
def Reachable (s : Thread) : Prop := Relation.ReflTransGen (Step outcome) init s

/-- How often the guard of a call has reverted. -/
def reverts (n : Nat) : Nat := s.issued.count (n, .revert)

/-! ### The invariant -/

variable {outcome s} {t : Token} {g : Guard}

/-- What holds in every state. -/
structure Inv (s : Thread) : Prop where
  /-- An adopted identity has a live guard. -/
  guarded : ∀ a, s.kernel.identity = some a → ∃ g ∈ s.live, g.call = a.call ∧ g.token.fd = a.fd
  active : ∀ g ∈ s.live, g.guard.active = true
  /-- Guards are of different calls, and earlier ones than the next. -/
  nodup : (s.live.map Guard.call).Nodup
  live_lt : ∀ g ∈ s.live, g.call < s.kernel.calls
  issued_lt : ∀ e ∈ s.issued, e.1 < s.kernel.calls
  live_reverts : ∀ g ∈ s.live, s.reverts g.call = 0
  ended_reverts : ∀ n ∈ s.ended, s.reverts n = 1

/-- The two ways to end an active guard both revert, once. -/
theorem ends_eq {α : Type} {p : ThreadProg α} (hrun : (p.run (Token.kernel outcome) s.kernel).2
      = { s.kernel with identity := none })
    (hcalls : p.calls (Token.kernel outcome) s.kernel = [.revert]) :
    s.ends outcome g p
      = { kernel := { s.kernel with identity := none }
          live := s.live.erase g
          ended := g.call :: s.ended
          issued := s.issued ++ [(g.call, .revert)] } := by
  unfold ends
  rw [hrun, hcalls]
  rfl

theorem ends_revert : s.ends outcome g g.guard.revert
    = { kernel := { s.kernel with identity := none }
        live := s.live.erase g
        ended := g.call :: s.ended
        issued := s.issued ++ [(g.call, .revert)] } :=
  -- the drop at the end of `revert` finds the guard inactive
  ends_eq rfl rfl

theorem ends_drop (hactive : g.guard.active = true) : s.ends outcome g g.guard.drop
    = { kernel := { s.kernel with identity := none }
        live := s.live.erase g
        ended := g.call :: s.ended
        issued := s.issued ++ [(g.call, .revert)] } := by
  have hdrop : g.guard.drop = Token.revert >>= fun _ => return () := if_pos hactive
  rw [hdrop]
  exact ends_eq rfl rfl

/-- The guard is made of what the one call returned. -/
theorem run_impersonateScoped {k k' : Kernel} {r : Except Errno Unit}
    (hanswer : Token.kernel outcome (.impersonate t.fd) k = (r, k')) :
    t.impersonateScoped.run (Token.kernel outcome) k
      = (r.map fun _ => { active := true }, k') := by
  unfold impersonateScoped impersonate
  rw [run_bind]
  unfold lift
  rw [run_call, hanswer]
  rcases r with e | _ <;> rfl

theorem impersonates_of_some {e : Errno} (he : outcome s.kernel.calls = some e) :
    s.impersonates outcome t = { s with kernel := { s.kernel with calls := s.kernel.calls + 1 } } := by
  have hanswer : Token.kernel outcome (.impersonate t.fd) s.kernel
      = (.error e, { s.kernel with calls := s.kernel.calls + 1 }) := by
    simp only [Token.kernel, he]
  unfold impersonates
  rw [run_impersonateScoped hanswer]
  rfl

theorem impersonates_of_none (hnone : outcome s.kernel.calls = none) :
    s.impersonates outcome t
      = { s with
          kernel := { identity := some { call := s.kernel.calls, fd := t.fd }
                      calls := s.kernel.calls + 1 }
          live := { call := s.kernel.calls, token := t, guard := { active := true } } :: s.live } := by
  have hanswer : Token.kernel outcome (.impersonate t.fd) s.kernel
      = (.ok (), { identity := some { call := s.kernel.calls, fd := t.fd }
                   calls := s.kernel.calls + 1 }) := by
    simp only [Token.kernel, hnone]
  unfold impersonates
  rw [run_impersonateScoped hanswer]
  rfl

theorem inv_init : Inv init where
  guarded := fun _ ha => nomatch ha
  active := fun _ hg => nomatch hg
  nodup := List.nodup_nil
  live_lt := fun _ hg => nomatch hg
  issued_lt := fun _ he => nomatch he
  live_reverts := fun _ hg => nomatch hg
  ended_reverts := fun _ hn => nomatch hn

/-- A call that fails changes nothing but the count. -/
theorem Inv.failed (hs : Inv s) :
    Inv { s with kernel := { s.kernel with calls := s.kernel.calls + 1 } } where
  guarded := hs.guarded
  active := hs.active
  nodup := hs.nodup
  live_lt := fun g hg => Nat.lt_succ_of_lt (hs.live_lt g hg)
  issued_lt := fun e he => Nat.lt_succ_of_lt (hs.issued_lt e he)
  live_reverts := hs.live_reverts
  ended_reverts := hs.ended_reverts

/-- A guard that has not been returned yet has issued nothing. -/
theorem Inv.reverts_calls (hs : Inv s) : s.reverts s.kernel.calls = 0 := by
  apply List.count_eq_zero_of_not_mem
  intro hmem
  exact absurd (hs.issued_lt _ hmem) (lt_irrefl _)

/-- A new guard guards the identity adopted with it. -/
theorem Inv.adopted (hs : Inv s) (t : Token) :
    Inv { s with
      kernel := { identity := some { call := s.kernel.calls, fd := t.fd }
                  calls := s.kernel.calls + 1 }
      live := { call := s.kernel.calls, token := t, guard := { active := true } } :: s.live } where
  guarded := by
    intro a ha
    obtain rfl := Option.some.inj ha
    exact ⟨_, List.mem_cons_self, rfl, rfl⟩
  active := by
    intro g hg
    rcases List.mem_cons.mp hg with rfl | hg
    · rfl
    · exact hs.active g hg
  nodup := by
    rw [List.map_cons, List.nodup_cons]
    refine ⟨fun hmem => ?_, hs.nodup⟩
    obtain ⟨g, hg, hcall⟩ := List.mem_map.mp hmem
    have hlt := hs.live_lt g hg
    rw [hcall] at hlt
    exact lt_irrefl _ hlt
  live_lt := by
    intro g hg
    rcases List.mem_cons.mp hg with rfl | hg
    · exact Nat.lt_succ_self _
    · exact Nat.lt_succ_of_lt (hs.live_lt g hg)
  issued_lt := fun e he => Nat.lt_succ_of_lt (hs.issued_lt e he)
  live_reverts := by
    intro g hg
    rcases List.mem_cons.mp hg with rfl | hg
    · exact hs.reverts_calls
    · exact hs.live_reverts g hg
  ended_reverts := hs.ended_reverts

/-- The end of a guard leaves the thread under its own identity. -/
theorem Inv.ended (hs : Inv s) (hg : g ∈ s.live) :
    Inv { kernel := { s.kernel with identity := none }
          live := s.live.erase g
          ended := g.call :: s.ended
          issued := s.issued ++ [(g.call, .revert)] } := by
  have hnodup : s.live.Nodup := .of_map _ hs.nodup
  -- no other live guard is of the same call
  have hne : ∀ g' ∈ s.live.erase g, g' ∈ s.live ∧ g'.call ≠ g.call := by
    intro g' hg'
    obtain ⟨hneq, hmem⟩ := hnodup.mem_erase_iff.mp hg'
    exact ⟨hmem, fun hcall => hneq (List.inj_on_of_nodup_map hs.nodup hmem hg hcall)⟩
  have hcount : ∀ n, (s.issued ++ [(g.call, ThreadCall.revert)]).count (n, .revert)
      = s.reverts n + if n = g.call then 1 else 0 := by
    intro n
    rw [List.count_append, List.count_singleton, reverts]
    congr 1
    by_cases hn : n = g.call
    · rw [if_pos hn, hn]
      exact if_pos (beq_self_eq_true _)
    · rw [if_neg hn]
      refine if_neg fun heq => hn ?_
      exact (congrArg Prod.fst (beq_iff_eq.mp heq)).symm
  constructor
  · exact fun _ ha => nomatch ha
  · exact fun g' hg' => hs.active g' (hne g' hg').1
  · exact hs.nodup.sublist (List.erase_sublist.map _)
  · exact fun g' hg' => hs.live_lt g' (hne g' hg').1
  · intro e he
    rcases List.mem_append.mp he with he | he
    · exact hs.issued_lt e he
    · obtain rfl := List.mem_singleton.mp he
      exact hs.live_lt g hg
  · intro g' hg'
    obtain ⟨hmem, hcall⟩ := hne g' hg'
    show List.count _ _ = 0
    rw [hcount, hs.live_reverts g' hmem, if_neg hcall]
  · intro n hn
    show List.count _ _ = 1
    rw [hcount]
    by_cases hcall : n = g.call
    · rw [if_pos hcall, hcall, hs.live_reverts g hg]
    · rw [if_neg hcall, hs.ended_reverts n ((List.mem_cons.mp hn).resolve_left hcall)]

/-- **One step.** -/
theorem Inv.step {s' : Thread} (hs : Inv s) (hstep : Step outcome s s') : Inv s' := by
  cases hstep with
  | impersonate t =>
    rcases ho : outcome s.kernel.calls with _ | e
    · rw [impersonates_of_none ho]
      exact hs.adopted t
    · rw [impersonates_of_some ho]
      exact hs.failed
  | revert g hg =>
    rw [ends_revert]
    exact hs.ended hg
  | drop g hg =>
    rw [ends_drop (hs.active g hg)]
    exact hs.ended hg

theorem inv_of_reachable (h : Reachable outcome s) : Inv s := by
  induction h with
  | refl => exact inv_init
  | tail _ hstep ih => exact ih.step hstep

/-! ### The result -/

/-- **An adopted identity never outlives its guards.**  In every state, whichever calls failed: the
guard of the call that adopted the thread's identity is live; without a live guard the thread has
its own identity; and a guard has reverted once if it has ended, and not before. -/
theorem identity_guarded (h : Reachable outcome s) :
    (∀ a, s.kernel.identity = some a → ∃ g ∈ s.live, g.call = a.call ∧ g.token.fd = a.fd) ∧
    (s.live = [] → s.kernel.identity = none) ∧
    (∀ g ∈ s.live, s.reverts g.call = 0) ∧ ∀ n ∈ s.ended, s.reverts n = 1 := by
  have hs := inv_of_reachable h
  refine ⟨hs.guarded, fun hnil => ?_, hs.live_reverts, hs.ended_reverts⟩
  by_contra hsome
  obtain ⟨a, ha⟩ := Option.ne_none_iff_exists'.mp hsome
  obtain ⟨g, hg, -⟩ := hs.guarded a ha
  rw [hnil] at hg
  cases hg

/-- Two guards, of which the first is dropped first. -/
theorem identity_guarded_overlapping :
    let s₁ := (init.impersonates (fun _ => none) { fd := 3 }).impersonates (fun _ => none) { fd := 4 }
    let s := s₁.ends (fun _ => none) ⟨0, { fd := 3 }, { active := true }⟩
      (Impersonation.drop { active := true })
    s.kernel.identity = none ∧ s.live.length = 1 ∧
      (∀ g ∈ s.live, s.reverts g.call = 0) ∧ ∀ n ∈ s.ended, s.reverts n = 1 := by
  have hreach : Reachable (fun _ => none)
      (((init.impersonates (fun _ => none) { fd := 3 }).impersonates (fun _ => none)
        { fd := 4 }).ends (fun _ => none) ⟨0, { fd := 3 }, { active := true }⟩
          (Impersonation.drop { active := true })) :=
    .tail (.tail (.tail .refl (.impersonate _ _)) (.impersonate _ _))
      (.drop _ ⟨0, { fd := 3 }, { active := true }⟩ (by decide))
  exact ⟨rfl, rfl, (identity_guarded hreach).2.2⟩

end Thread

end Peios.Token
