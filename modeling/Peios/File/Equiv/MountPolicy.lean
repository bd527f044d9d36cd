import Peios.Equiv.Util
import Peios.File.MountPolicy

/-!
# When a mount policy that is read was in force

`InForce` is what a call of `peios_mount_get_policy` sees: the policy at that moment, which others
may replace between any two calls.  `File.mountGetPolicy` should return one such policy, or fail:
this is `Consistent`.

It takes the scalar fields from its first call and replaces them together with the template, so it
mixes two policies when the template is gone by the time it is read, and loses the template when
four reads find it too large.  `mountGetPolicy_consistent_iff` says that it is consistent otherwise.
-/

namespace Peios.File

open Interaction Prog Util

/-! ### What a call sees -/

/-- The policy a call finds.  An empty template is no template. -/
structure InForce where
  policy : MountPolicy
  template_ne : policy.templateSd ≠ some []
  template_fits : (policy.templateSd.getD []).length ≤ isizeMax
  /-- The error the call fails with, whatever it is given. -/
  failure : Option Errno
  failure_ne : failure ≠ some ERANGE
  /-- What a failed call leaves, and where the descriptor points when there is no buffer. -/
  rest : PolicyReply

namespace InForce

/-- The template's bytes. -/
def template (m : InForce) : List UInt8 := m.policy.templateSd.getD []

/-- The descriptor of the policy. -/
def out (m : InForce) (isNull : Bool) : PolicyOut :=
  { policy := m.policy.kind, flags := m.policy.flags, generation := m.policy.generation,
    templateSdIsNull := isNull, templateSdLen := m.template.length }

/-- What a call leaves: the policy and the template's length without a buffer, the template as well
when it fits the buffer, and otherwise `ERANGE` with the length. -/
def answer (m : InForce) : BufCall → PolicyReply
  | c =>
    match m.failure, c with
    | some e, _ => { m.rest with errno := some e }
    | none, .null => { errno := none, out := m.out m.rest.out.templateSdIsNull, buf := [] }
    | none, .buf b =>
      if m.template.length ≤ b.length then
        { errno := none, out := m.out m.policy.templateSd.isNone,
          buf := m.template ++ b.drop m.template.length }
      else
        { m.rest with errno := some ERANGE, out := { m.rest.out with
            templateSdLen := m.template.length } }

theorem template_eq_nil {m : InForce} : m.template = [] ↔ m.policy.templateSd = none := by
  have hne := m.template_ne
  unfold template
  cases h : m.policy.templateSd with
  | none => exact ⟨fun _ => rfl, fun _ => rfl⟩
  | some b =>
    rw [h] at hne
    exact ⟨fun hb => absurd (congrArg some hb) hne, fun hb => nomatch hb⟩

end InForce

variable {sched : Nat → InForce}

/-- Call `k + 1` found a larger template than call `k`. -/
def Grew (sched : Nat → InForce) (k : Nat) : Prop :=
  (sched (k + 1)).failure = none ∧ (sched k).template.length < (sched (k + 1)).template.length

/-- A call that found a larger template found a template. -/
theorem Grew.templateSd_ne {k : Nat} (h : Grew sched k) :
    (sched (k + 1)).policy.templateSd ≠ none := by
  intro hnone
  have hlt := h.2
  rw [InForce.template_eq_nil.mpr hnone] at hlt
  exact absurd hlt (Nat.not_lt_zero _)

/-! ### What the reads do against a schedule -/

/-- What the reads with a buffer end with. -/
inductive Ended where
  | read (policy : MountPolicy)
  /-- There was no template to read. -/
  | dropped
  | failed (e : Errno)
  | gaveUp

/-- What a read with enough room ends with. -/
def InForce.ended (m : InForce) : Ended :=
  match m.failure, m.policy.templateSd with
  | some e, _ => .failed e
  | none, none => .dropped
  | none, some _ => .read m.policy

/-- `Reads sched rounds k n o`: after call `k`, with `rounds` rounds left and room for the template
it found, there are `n` more calls and they end with `o`. -/
inductive Reads (sched : Nat → InForce) : Nat → Nat → Nat → Ended → Prop
  | exhausted (k) : Reads sched 0 k 0 .gaveUp
  | settled {rounds k} : ¬ Grew sched k → Reads sched (rounds + 1) k 1 (sched (k + 1)).ended
  | grown {rounds k n o} : Grew sched k → Reads sched rounds (k + 1) n o →
      Reads sched (rounds + 1) k (n + 1) o

namespace Reads

variable {rounds k n : Nat} {o : Ended}

/-- The reads stop at the first that finds the template no larger, if there is one. -/
theorem cases (h : Reads sched rounds k n o) :
    (o = .gaveUp ∧ n = rounds ∧ ∀ j < rounds, Grew sched (k + j)) ∨
    ∃ i < rounds, n = i + 1 ∧ o = (sched (k + (i + 1))).ended ∧
      (∀ j < i, Grew sched (k + j)) ∧ ¬ Grew sched (k + i) := by
  induction h with
  | exhausted => exact .inl ⟨rfl, rfl, fun j hj => absurd hj (Nat.not_lt_zero j)⟩
  | settled hstop =>
    exact .inr ⟨0, Nat.succ_pos _, rfl, rfl, fun j hj => absurd hj (Nat.not_lt_zero j), hstop⟩
  | @grown rounds k n o hgrew _ ih =>
    have hshift : ∀ j, k + 1 + j = k + (j + 1) := by omega
    have hcons : ∀ m, (∀ j < m, Grew sched (k + 1 + j)) → ∀ j < m + 1, Grew sched (k + j) := by
      intro m hm j hj
      cases j with
      | zero => exact hgrew
      | succ j =>
        rw [← hshift]
        exact hm j (Nat.lt_of_succ_lt_succ hj)
    rcases ih with ⟨ho, hn, hall⟩ | ⟨i, hi, hn, ho, hall, hstop⟩
    · exact .inl ⟨ho, congrArg Nat.succ hn, hcons rounds hall⟩
    · refine .inr ⟨i + 1, Nat.succ_lt_succ hi, congrArg Nat.succ hn, ?_, hcons i hall, ?_⟩
      · rw [ho, hshift]
      · rwa [← hshift]

end Reads

/-! ### The loop -/

/-- What the method returns when the first call left `out`. -/
def Ended.result (out : PolicyOut) : Ended → Outcome MountPolicy
  | read policy => .ok policy
  | dropped => .ok (.ofOut out none)
  | failed e => .error (.errno e)
  | gaveUp => .ok (.ofOut out none)

/-- The policy the loop's result makes. -/
def policyOf (r : PolicyOut × Option (List UInt8)) : MountPolicy := .ofOut r.1 r.2

section Loop

variable (sched)

/-- The calls of the method, answered from the schedule. -/
abbrev observed : Handler BufCall (fun _ => PolicyReply) Nat := .scheduled InForce.answer sched

/-- What the rest of a round makes of a read with a buffer of `cap` bytes. -/
def afterRead (out : PolicyOut) (rounds cap : Nat) (r : PolicyReply) :
    PolicyProg (PolicyOut × Option (List UInt8)) :=
  match r.errno with
  | none =>
    if r.out.templateSdIsNull ∨ r.out.templateSdLen = 0 then return (out, none)
    else return (r.out, some (r.buf.take r.out.templateSdLen))
  | some e =>
    if e = ERANGE then readTemplate out rounds (max r.out.templateSdLen (cap + 1))
    else throw (.errno e)

variable {sched}

theorem exec_getPolicy (c : BufCall) (k : Nat) :
    exec (observed sched) (getPolicy c) k = (.ok ((sched k).answer c), k + 1) := rfl

/-- What the `k + 1`-th call leaves, with a buffer of the length the `k`-th reported. -/
def reread (sched : Nat → InForce) (k : Nat) : PolicyReply :=
  (sched (k + 1)).answer (.buf (List.replicate (sched k).template.length 0))

/-- A round reads first. -/
theorem exec_round (out : PolicyOut) (rounds k : Nat) :
    exec (observed sched) (readTemplate out (rounds + 1) (sched k).template.length) (k + 1)
      = exec (observed sched) (afterRead out rounds (sched k).template.length (reread sched k))
          (k + 2) := by
  have hfits : (sched k).template.length ≤ isizeMax := (sched k).template_fits
  rw [readTemplate, exec_zeroed hfits, exec_bind_ok (exec_getPolicy _ _)]
  rfl

theorem events_round (out : PolicyOut) (rounds k : Nat) :
    events (observed sched) (readTemplate out (rounds + 1) (sched k).template.length) (k + 1)
      = ⟨.buf (List.replicate (sched k).template.length 0), reread sched k⟩ ::
        events (observed sched) (afterRead out rounds (sched k).template.length (reread sched k))
          (k + 2) := by
  have hfits : (sched k).template.length ≤ isizeMax := (sched k).template_fits
  rw [readTemplate, events_zeroed hfits, events_bind_ok (exec_getPolicy _ _)]
  rfl

/-- A read that finds a larger template makes room for it. -/
theorem afterRead_grown {k : Nat} (h : Grew sched k) (out : PolicyOut) (rounds : Nat) :
    afterRead out rounds (sched k).template.length (reread sched k)
      = readTemplate out rounds (sched (k + 1)).template.length := by
  have hnot : ¬ (sched (k + 1)).template.length ≤ (sched k).template.length := Nat.not_le.mpr h.2
  have hmax : max (sched (k + 1)).template.length ((sched k).template.length + 1)
      = (sched (k + 1)).template.length := Nat.max_eq_left h.2
  simp only [afterRead, reread, InForce.answer, h.1, List.length_replicate, if_neg hnot, if_true,
    hmax]

/-- A read that finds no larger template ends the loop. -/
theorem exec_settled {k : Nat} (h : ¬ Grew sched k) (out : PolicyOut) (rounds cap t : Nat) :
    (exec (observed sched) (afterRead out rounds cap (reread sched k)) t).1.map policyOf
        = (sched (k + 1)).ended.result out ∧
      events (observed sched) (afterRead out rounds cap (reread sched k)) t = [] := by
  cases hfail : (sched (k + 1)).failure with
  | some e =>
    have hne : e ≠ ERANGE := by
      rintro rfl
      exact (sched (k + 1)).failure_ne hfail
    simp only [reread, InForce.answer, InForce.ended, afterRead, hfail, if_neg hne]
    exact ⟨rfl, rfl⟩
  | none =>
    -- the template fits, so the read succeeds
    have hle : (sched (k + 1)).template.length ≤ (sched k).template.length :=
      Nat.le_of_not_lt fun hlt => h ⟨hfail, hlt⟩
    simp only [reread, InForce.answer, InForce.ended, afterRead, hfail, List.length_replicate,
      if_pos hle, InForce.out]
    cases hsd : (sched (k + 1)).policy.templateSd with
    | none =>
      rw [if_pos (.inl rfl)]
      exact ⟨rfl, rfl⟩
    | some sd =>
      have hsome : ¬ ((some sd).isNone = true ∨ (sched (k + 1)).template.length = 0) := by
        rintro (h | h)
        · cases h
        · rw [InForce.template_eq_nil.mp (List.eq_nil_of_length_eq_zero h)] at hsd
          cases hsd
      rw [if_neg hsome, List.take_left]
      refine ⟨congrArg Except.ok ?_, rfl⟩
      show MountPolicy.mk _ _ _ (some ((sched (k + 1)).policy.templateSd.getD [])) = _
      rw [hsd, Option.getD_some, ← hsd]

/-- **The loop does what `Reads` describes**: it makes so many calls, and ends with that. -/
theorem loop_reads (out : PolicyOut) (rounds k : Nat) :
    ∃ n o, Reads sched rounds k n o ∧
      (events (observed sched) (readTemplate out rounds (sched k).template.length) (k + 1)).length
        = n ∧
      (exec (observed sched) (readTemplate out rounds (sched k).template.length) (k + 1)).1.map
        policyOf = o.result out := by
  induction rounds generalizing k with
  | zero => exact ⟨0, .gaveUp, .exhausted k, rfl, rfl⟩
  | succ rounds ih =>
    rw [exec_round, events_round, List.length_cons]
    by_cases hgrew : Grew sched k
    · obtain ⟨n, o, hreads, hn, ho⟩ := ih (k + 1)
      rw [afterRead_grown hgrew]
      exact ⟨n + 1, o, .grown hgrew hreads, congrArg Nat.succ hn, ho⟩
    · obtain ⟨hresult, hevents⟩ := exec_settled hgrew out rounds (sched k).template.length (k + 2)
      exact ⟨1, _, .settled hgrew, by rw [hevents]; rfl, hresult⟩

end Loop

/-! ### The method -/

/-- **Reading the policy is consistent**: an `Ok` result is the policy one of the calls found, and
a template that keeps growing makes it fail. -/
structure Consistent (sched : Nat → InForce) (calls : Nat) (result : Outcome MountPolicy) :
    Prop where
  inForce : ∀ policy, result = .ok policy → ∃ k < calls, (sched k).policy = policy
  outgrown : (sched 0).failure = none → (sched 0).policy.templateSd ≠ none →
    (∀ j < 4, Grew sched j) → ∃ e, result = .error e

/-- One of the first four reads with a buffer finds the template no larger than it was, and the
first such read, unless it fails, finds a template or the other fields as they were at the start. -/
def Settles (sched : Nat → InForce) : Prop :=
  ∃ i < 4, (∀ j < i, Grew sched j) ∧ ¬ Grew sched i ∧
    ((sched (i + 1)).failure = none → (sched (i + 1)).policy.templateSd = none →
      (sched (i + 1)).policy = { (sched 0).policy with templateSd := none })

section Method

/-- What a call without a buffer leaves. -/
theorem answer_null {m : InForce} (h : m.failure = none) :
    m.answer .null = { errno := none, out := m.out m.rest.out.templateSdIsNull, buf := [] } := by
  simp only [InForce.answer, h]

/-- The policy of the first call, without its template. -/
theorem ofOut_out (m : InForce) (isNull : Bool) :
    MountPolicy.ofOut (m.out isNull) none = { m.policy with templateSd := none } := rfl

/-- What the method makes of the first call's descriptor. -/
def afterFirst (out : PolicyOut) : PolicyProg MountPolicy :=
  if out.templateSdLen = 0 then return .ofOut out none
  else do
    let r ← readTemplate out 4 out.templateSdLen
    return policyOf r

/-- The descriptor that the first call leaves. -/
def firstOut (sched : Nat → InForce) : PolicyOut :=
  (sched 0).out (sched 0).rest.out.templateSdIsNull

theorem exec_method (h0 : (sched 0).failure = none) :
    exec (observed sched) mountGetPolicy 0
      = exec (observed sched) (afterFirst (firstOut sched)) 1 := by
  rw [mountGetPolicy, exec_bind_ok (exec_getPolicy _ _), answer_null h0]
  rfl

theorem length_events_method (h0 : (sched 0).failure = none) :
    (events (observed sched) mountGetPolicy 0).length
      = (events (observed sched) (afterFirst (firstOut sched)) 1).length + 1 := by
  rw [mountGetPolicy, events_bind_ok (exec_getPolicy _ _), answer_null h0, List.length_append,
    Nat.add_comm]
  rfl

/-- What the method does when its first call finds a template. -/
theorem method_reads (h0 : (sched 0).failure = none) (hsd : (sched 0).policy.templateSd ≠ none) :
    ∃ n o, Reads sched 4 0 n o ∧ (events (observed sched) mountGetPolicy 0).length = n + 1 ∧
      (exec (observed sched) mountGetPolicy 0).1 = o.result (firstOut sched) := by
  have hlen : ¬ (firstOut sched).templateSdLen = 0 := fun h =>
    hsd (InForce.template_eq_nil.mp (List.eq_nil_of_length_eq_zero h))
  obtain ⟨n, o, hreads, hn, ho⟩ := loop_reads (firstOut sched) 4 0
  refine ⟨n, o, hreads, ?_, ?_⟩
  · rw [length_events_method h0, afterFirst, if_neg hlen, events_bind_pure]
    exact congrArg Nat.succ hn
  · rw [exec_method h0, ← ho, afterFirst, if_neg hlen, exec_bind_pure]
    rfl

/-- The first call fails, or finds no template. -/
theorem consistent_of_first (h : (sched 0).failure ≠ none ∨ (sched 0).policy.templateSd = none) :
    Consistent sched (events (observed sched) mountGetPolicy 0).length
      (exec (observed sched) mountGetPolicy 0).1 := by
  refine ⟨fun policy hok => ?_, fun h0 hsd _ => ?_⟩
  · cases h0 : (sched 0).failure with
    | some e =>
      rw [mountGetPolicy, exec_bind_ok (exec_getPolicy _ _)] at hok
      simp only [InForce.answer, h0] at hok
      cases hok
    | none =>
      have hsd := h.resolve_left (not_not.mpr h0)
      have hlen : (firstOut sched).templateSdLen = 0 :=
        congrArg List.length (InForce.template_eq_nil.mpr hsd)
      rw [exec_method h0, afterFirst, if_pos hlen] at hok
      obtain rfl := Except.ok.inj hok
      refine ⟨0, by rw [length_events_method h0]; exact Nat.succ_pos _, ?_⟩
      show (sched 0).policy = { (sched 0).policy with templateSd := none }
      rw [← hsd]
  · rcases h with h | h
    · exact absurd h0 h
    · exact absurd h hsd

/-- What the read that ends the loop returns: the policy it found, or the first one without its
template. -/
theorem InForce.ended_ok {m : InForce} {out : PolicyOut} {policy : MountPolicy}
    (hok : m.ended.result out = .ok policy) :
    m.failure = none ∧
      (policy = m.policy ∨ m.policy.templateSd = none ∧ policy = .ofOut out none) := by
  unfold InForce.ended at hok
  cases hfail : m.failure with
  | some e =>
    rw [hfail] at hok
    cases hok
  | none =>
    refine ⟨rfl, ?_⟩
    cases hsd : m.policy.templateSd with
    | none =>
      rw [hfail, hsd] at hok
      exact .inr ⟨rfl, (Except.ok.inj hok).symm⟩
    | some sd =>
      rw [hfail, hsd] at hok
      exact .inl (Except.ok.inj hok).symm

variable {n : Nat} {o : Ended}

/-- Reads that are consistent settle. -/
theorem Reads.settles (hreads : Reads sched 4 0 n o) (h0 : (sched 0).failure = none)
    (hsd : (sched 0).policy.templateSd ≠ none)
    (h : Consistent sched (n + 1) (o.result (firstOut sched))) : Settles sched := by
  rcases hreads.cases with ⟨rfl, -, hall⟩ | ⟨i, hi, rfl, rfl, hall, hstop⟩
  · -- the template has outgrown every buffer, and is lost
    obtain ⟨e, he⟩ := h.outgrown h0 hsd fun j hj => Nat.zero_add j ▸ hall j hj
    cases he
  · simp only [Nat.zero_add] at hall hstop h
    refine ⟨i, hi, hall, hstop, fun hfail hgone => ?_⟩
    -- the other fields are those of the first call
    rw [InForce.ended, hfail, hgone] at h
    obtain ⟨k, hk, hpolicy⟩ := h.inForce _ rfl
    rw [firstOut, ofOut_out] at hpolicy
    have hnone : (sched k).policy.templateSd = none := by rw [hpolicy]
    match k with
    | 0 => exact absurd hnone hsd
    | k + 1 =>
      rcases Nat.lt_or_ge k i with hlt | hge
      · exact absurd hnone (hall k hlt).templateSd_ne
      · obtain rfl : k = i := by omega
        exact hpolicy

/-- Reads that settle are consistent: the policy is the one that the last of them found. -/
theorem Reads.consistent (hreads : Reads sched 4 0 n o) (h : Settles sched) :
    Consistent sched (n + 1) (o.result (firstOut sched)) := by
  obtain ⟨i, hi, hall, hstop, hgone⟩ := h
  refine ⟨fun policy hok => ?_, fun _ _ hgrew => absurd (hgrew i hi) hstop⟩
  rcases hreads.cases with ⟨rfl, -, hall'⟩ | ⟨i', -, rfl, rfl, hall', hstop'⟩
  · exact absurd (Nat.zero_add i ▸ hall' i hi) hstop
  · simp only [Nat.zero_add] at hall' hstop' hok
    have hi : i' = i := by
      rcases Nat.lt_trichotomy i' i with h | h | h
      · exact absurd (hall i' h) hstop'
      · exact h
      · exact absurd (hall' i h) hstop
    subst hi
    refine ⟨i' + 1, Nat.lt_succ_self _, ?_⟩
    obtain ⟨hfail, rfl | ⟨hsd, rfl⟩⟩ := InForce.ended_ok hok
    · rfl
    · rw [hgone hfail hsd, firstOut, ofOut_out]

/-- **When `mount_get_policy` is consistent**: when its first call fails or finds no template, and
when the reads that follow settle. -/
theorem mountGetPolicy_consistent_iff (sched : Nat → InForce) :
    Consistent sched (events (observed sched) mountGetPolicy 0).length
        (exec (observed sched) mountGetPolicy 0).1 ↔
      (sched 0).failure ≠ none ∨ (sched 0).policy.templateSd = none ∨ Settles sched := by
  rw [← or_assoc]
  by_cases hfirst : (sched 0).failure ≠ none ∨ (sched 0).policy.templateSd = none
  · exact iff_of_true (consistent_of_first hfirst) (.inl hfirst)
  rw [or_iff_right hfirst]
  rw [not_or, not_not] at hfirst
  obtain ⟨h0, hsd⟩ := hfirst
  obtain ⟨n, o, hreads, hn, ho⟩ := method_reads h0 hsd
  rw [hn, ho]
  exact ⟨hreads.settles h0 hsd, hreads.consistent⟩

/-- A policy with a template is replaced by one without, after the first call. -/
def replaced (k : Nat) : InForce where
  policy := if k = 0 then { kind := 3, flags := 0, generation := 1, templateSd := some [1] }
    else { kind := 2, flags := 0, generation := 2, templateSd := none }
  template_ne := by split <;> decide
  template_fits := by split <;> decide
  failure := none
  failure_ne := nofun
  rest := { errno := none, out := ⟨0, 0, 0, true, 0⟩, buf := [] }

/-- The result has the fields of the first policy and the second one's lack of a template. -/
theorem not_consistent_replaced :
    ¬ Consistent replaced (events (observed replaced) mountGetPolicy 0).length
      (exec (observed replaced) mountGetPolicy 0).1 := by
  intro h
  obtain ⟨k, -, hk⟩ :=
    h.inForce { kind := 3, flags := 0, generation := 1, templateSd := none } rfl
  cases k with
  | zero => exact absurd hk (by decide)
  | succ k =>
    have hkind : (2 : UInt32) = 3 := congrArg MountPolicy.kind hk
    exact absurd hkind (by decide)

end Method

end Peios.File
