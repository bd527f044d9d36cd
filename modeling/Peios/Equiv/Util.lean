import Peios.Interaction.Handler
import Peios.Util

/-!
# Size probes are linearizable

`Moment` is what a call sees of the object: its contents, and an error it may fail with instead.
Others may change the object between any two calls, so a probe is run against a schedule of moments.

`Fills` describes the rounds of a probe against a schedule, call by call; `loop_fills` says that
this is what the loop does.  From the inductions over `Fills` come the parts of `Linearizable`,
which `probes_linearizable` states for `Util.probe` and `Util.probeStr`.
-/

namespace Peios.Util

open Interaction ByteString

/-! ### Vectors -/

section Zeroed

open Prog

variable {C : Type} {R : C → Type} {α σ : Type} {h : Handler C R σ}
  {f : List UInt8 → ExceptT Fault (Prog C R) α}

theorem exec_zeroed {n : Nat} (hn : n ≤ isizeMax) (s : σ) :
    exec h (zeroed n >>= f) s = exec h (f (List.replicate n 0)) s := by
  rw [zeroed, if_pos hn]
  rfl

/-- Allocating a buffer makes no call. -/
theorem events_zeroed {n : Nat} (hn : n ≤ isizeMax) (s : σ) :
    events h (zeroed n >>= f) s = events h (f (List.replicate n 0)) s := by
  rw [zeroed, if_pos hn]
  rfl

end Zeroed

/-! ### What a call sees -/

/-- The object as a call finds it.  A buffer with room for it can be allocated; `slack` bytes are
written after the contents and not counted in the size. -/
structure Moment (slack : Nat) where
  contents : List UInt8
  fits : contents.length + slack ≤ isizeMax
  /-- The error the call fails with, whatever it is given. -/
  failure : Option Errno
  failure_ne : failure ≠ some ERANGE

variable {slack : Nat}

namespace Moment

/-- The size a call reports. -/
def size (o : Moment slack) : Nat := o.contents.length

/-- What a call returns: the size when the capacity is 0; the size, with the contents written,
when they fit; `ERANGE` otherwise. -/
def answer (o : Moment slack) (c : BufCall) : BufReply c :=
  match o.failure with
  | some e => .error e
  | none =>
    if c.bytes.length = 0 then .ok (o.size, c.bytes)
    else if o.size + slack ≤ c.bytes.length then
      .ok (o.size, o.contents ++ List.replicate slack 0 ++ c.bytes.drop (o.size + slack))
    else .error ERANGE

end Moment

/-- The fill after a call that reported `n`. -/
def fillCall (slack n : Nat) : BufCall := .buf (List.replicate (n + slack) 0)

namespace Moment

variable {o : Moment slack}

theorem answer_failed {e : Errno} (he : o.failure = some e) (c : BufCall) :
    o.answer c = .error e := by
  simp only [answer, he]

/-- A fill with no room is answered like a probe. -/
theorem answer_empty (ho : o.failure = none) {n : Nat} (hn : n + slack = 0) :
    o.answer (fillCall slack n) = .ok (o.size, []) := by
  simp only [answer, ho, fillCall, BufCall.bytes, hn, List.replicate_zero, List.length_nil,
    if_true]

/-- A fill with enough room is answered with the contents. -/
theorem answer_filled (ho : o.failure = none) {n : Nat} (hpos : n + slack ≠ 0) (hn : o.size ≤ n) :
    ∃ rest, o.answer (fillCall slack n) = .ok (o.size, o.contents ++ rest) := by
  refine ⟨List.replicate slack 0 ++ (List.replicate (n + slack) 0).drop (o.size + slack), ?_⟩
  simp only [answer, ho, fillCall, BufCall.bytes, List.length_replicate, if_neg hpos,
    if_pos (Nat.add_le_add_right hn slack), List.append_assoc]

theorem answer_grown (ho : o.failure = none) {n : Nat} (hpos : n + slack ≠ 0) (hn : n < o.size) :
    o.answer (fillCall slack n) = .error ERANGE := by
  have hnot : ¬ o.size + slack ≤ n + slack := by omega
  simp only [answer, ho, fillCall, BufCall.bytes, List.length_replicate, if_neg hpos, if_neg hnot]

end Moment

/-! ### What the loop does against a schedule -/

/-- What the rounds of a probe end with. -/
inductive Ended where
  | read (b : List UInt8)
  | failed (e : Errno)
  | gaveUp

/-- `Fills sched rounds k cs o`: when the size was asked for by the `k`-th call and `rounds` rounds
are left, the loop makes the calls `cs` and ends with `o`. -/
inductive Fills (sched : Nat → Moment slack) : Nat → Nat → List BufCall → Ended → Prop
  | exhausted (k) : Fills sched 0 k [] .gaveUp
  /-- The fill fails. -/
  | failed {rounds k e} : (sched (k + 1)).failure = some e →
      Fills sched (rounds + 1) k [fillCall slack (sched k).size] (.failed e)
  /-- There is nothing to allocate, and the fill is a probe. -/
  | empty {rounds k} : (sched (k + 1)).failure = none → (sched k).size + slack = 0 →
      Fills sched (rounds + 1) k [fillCall slack (sched k).size] (.read [])
  | filled {rounds k} : (sched (k + 1)).failure = none → (sched (k + 1)).size ≤ (sched k).size →
      Fills sched (rounds + 1) k [fillCall slack (sched k).size] (.read (sched (k + 1)).contents)
  /-- The object has grown, and its size cannot be had. -/
  | unprobed {rounds k e} : (sched (k + 1)).failure = none →
      (sched k).size < (sched (k + 1)).size → (sched (k + 2)).failure = some e →
      Fills sched (rounds + 1) k [fillCall slack (sched k).size, .null] (.failed e)
  /-- The object has grown. -/
  | grown {rounds k cs o} : (sched (k + 1)).failure = none →
      (sched k).size < (sched (k + 1)).size → (sched (k + 2)).failure = none →
      Fills sched rounds (k + 2) cs o →
      Fills sched (rounds + 1) k (fillCall slack (sched k).size :: .null :: cs) o

namespace Fills

variable {sched : Nat → Moment slack} {rounds k : Nat} {cs : List BufCall} {o : Ended}

theorem length_le (h : Fills sched rounds k cs o) : cs.length ≤ 2 * rounds := by
  induction h with
  | exhausted => exact Nat.le_refl _
  | failed | empty | filled | unprobed =>
    simp only [List.length_cons, List.length_nil]
    omega
  | grown _ _ _ _ ih =>
    simp only [List.length_cons]
    omega

/-- Bytes that were read are the contents of the object at a call. -/
theorem of_read {b : List UInt8} (h : Fills sched rounds k cs o) (ho : o = .read b) :
    ∃ j ≤ cs.length, (sched (k + j)).contents = b := by
  induction h with
  | exhausted | failed | unprobed => cases ho
  | @empty rounds k _ hzero =>
    -- the object was empty when its size was asked for
    obtain rfl := Ended.read.inj ho
    have hsize : (sched k).contents.length = 0 := (Nat.add_eq_zero_iff.mp hzero).1
    exact ⟨0, Nat.zero_le _, List.eq_nil_of_length_eq_zero hsize⟩
  | filled =>
    obtain rfl := Ended.read.inj ho
    exact ⟨1, Nat.le_refl _, rfl⟩
  | @grown rounds k cs o _ _ _ _ ih =>
    obtain ⟨j, hj, hcontents⟩ := ih ho
    refine ⟨j + 2, by simp only [List.length_cons]; omega, ?_⟩
    rw [← hcontents]
    congr 2
    omega

/-- An error the loop ends with is that of its last call. -/
theorem of_failed {e : Errno} (h : Fills sched rounds k cs o) (ho : o = .failed e) :
    0 < cs.length ∧ (sched (k + cs.length)).failure = some e := by
  induction h with
  | exhausted | empty | filled => cases ho
  | failed hfail =>
    obtain rfl := Ended.failed.inj ho
    exact ⟨Nat.zero_lt_one, hfail⟩
  | unprobed _ _ hfail =>
    obtain rfl := Ended.failed.inj ho
    exact ⟨Nat.zero_lt_two, hfail⟩
  | @grown rounds k cs o _ _ _ _ ih =>
    obtain ⟨hpos, hfail⟩ := ih ho
    refine ⟨Nat.succ_pos _, ?_⟩
    rw [← hfail]
    congr 2
    simp only [List.length_cons]
    omega

/-- A call that fails is the last one. -/
theorem failure (h : Fills sched rounds k cs o) {e : Errno} :
    ∀ j, j < cs.length → (sched (k + (j + 1))).failure = some e →
      j + 1 = cs.length ∧ o = .failed e := by
  induction h with
  | exhausted => simp
  | failed hfail =>
    intro j hj hj'
    obtain rfl : j = 0 := Nat.lt_one_iff.mp hj
    obtain rfl := Option.some.inj (hfail.symm.trans hj')
    exact ⟨rfl, rfl⟩
  | empty hnone | filled hnone =>
    intro j hj hj'
    obtain rfl : j = 0 := Nat.lt_one_iff.mp hj
    rw [Nat.zero_add, hnone] at hj'
    cases hj'
  | unprobed hnone _ hfail =>
    intro j hj hj'
    cases j with
    | zero =>
      rw [Nat.zero_add, hnone] at hj'
      cases hj'
    | succ j =>
      obtain rfl : j = 0 := by
        simp only [List.length_cons, List.length_nil] at hj
        omega
      obtain rfl := Option.some.inj (hfail.symm.trans hj')
      exact ⟨rfl, rfl⟩
  | @grown rounds k cs o hnone _ hnone' _ ih =>
    intro j hj hj'
    match j with
    | 0 =>
      rw [Nat.zero_add, hnone] at hj'
      cases hj'
    | 1 =>
      rw [hnone'] at hj'
      cases hj'
    | j + 2 =>
      simp only [List.length_cons] at hj ⊢
      have hshift : k + (j + 2 + 1) = k + 2 + (j + 1) := by omega
      -- a call of the rounds that follow
      obtain ⟨hlen, ho⟩ := ih j (by omega) (hshift ▸ hj')
      exact ⟨by omega, ho⟩

/-- When the loop gives up, every fill found the object larger than it was when its size was
asked for. -/
theorem of_gaveUp (h : Fills sched rounds k cs o) (ho : o = .gaveUp) :
    cs.length = 2 * rounds ∧ ∀ j < rounds,
      cs[2 * j]? = some (fillCall slack (sched (k + 2 * j)).size) ∧
      cs[2 * j + 1]? = some .null ∧
      (sched (k + 2 * j)).size < (sched (k + (2 * j + 1))).size := by
  induction h with
  | exhausted => exact ⟨rfl, fun j hj => absurd hj (Nat.not_lt_zero j)⟩
  | failed | empty | filled | unprobed => cases ho
  | @grown rounds k cs o _ hgrown _ _ ih =>
    obtain ⟨hlen, hall⟩ := ih ho
    refine ⟨?_, fun j hj => ?_⟩
    · simp only [List.length_cons]
      omega
    cases j with
    | zero => exact ⟨rfl, rfl, hgrown⟩
    | succ j =>
      have h₁ : k + 2 * (j + 1) = k + 2 + 2 * j := by omega
      have h₂ : k + (2 * (j + 1) + 1) = k + 2 + (2 * j + 1) := by omega
      rw [h₁, h₂]
      exact hall j (by omega)

/-- A fill that finds the object no larger than it was ends the loop with its contents. -/
theorem settled (h : Fills sched rounds k cs o) :
    ∀ j, 2 * j < cs.length → (sched (k + (2 * j + 1))).failure = none →
      (sched (k + (2 * j + 1))).size ≤ (sched (k + 2 * j)).size →
      2 * j + 1 = cs.length ∧ o = .read (sched (k + (2 * j + 1))).contents := by
  induction h with
  | exhausted => simp
  | failed hfail =>
    intro j hj hnone _
    obtain rfl : j = 0 := by
      simp only [List.length_cons, List.length_nil] at hj
      omega
    rw [hfail] at hnone
    cases hnone
  | empty _ hzero =>
    intro j hj _ hle
    obtain rfl : j = 0 := by
      simp only [List.length_cons, List.length_nil] at hj
      omega
    refine ⟨rfl, congrArg Ended.read (List.eq_nil_of_length_eq_zero ?_).symm⟩
    exact Nat.le_zero.mp (Nat.le_trans hle (Nat.le_of_eq (Nat.add_eq_zero_iff.mp hzero).1))
  | filled =>
    intro j hj _ _
    obtain rfl : j = 0 := by
      simp only [List.length_cons, List.length_nil] at hj
      omega
    exact ⟨rfl, rfl⟩
  | unprobed _ hgrown =>
    intro j hj _ hle
    obtain rfl : j = 0 := by
      simp only [List.length_cons, List.length_nil] at hj
      omega
    exact absurd hgrown (Nat.not_lt.mpr hle)
  | @grown rounds k cs o _ hgrown _ _ ih =>
    intro j hj hnone hle
    cases j with
    | zero => exact absurd hgrown (Nat.not_lt.mpr hle)
    | succ j =>
      simp only [List.length_cons] at hj ⊢
      have h₁ : k + 2 * (j + 1) = k + 2 + 2 * j := by omega
      have h₂ : k + (2 * (j + 1) + 1) = k + 2 + (2 * j + 1) := by omega
      rw [h₁, h₂] at hle
      rw [h₂] at hnone ⊢
      obtain ⟨hlen, ho⟩ := ih j (by omega) hnone hle
      exact ⟨by omega, ho⟩

end Fills

/-! ### The loop -/

/-- What a probe returns, by what its rounds ended with. -/
def Ended.result {β : Type} (finish : List UInt8 → Outcome β) : Ended → Outcome β
  | read b => finish b
  | failed e => .error (.errno e)
  | gaveUp => .error (.errno ERANGE)

section Loop

open Prog

variable {β : Type} (finish : List UInt8 → Outcome β) (sched : Nat → Moment slack)

/-- The calls of a probe, answered from the schedule. -/
abbrev observed : Handler BufCall BufReply Nat := .scheduled Moment.answer sched

variable {sched}

theorem exec_askSize_ok {k : Nat} (hk : (sched k).failure = none) :
    exec (observed sched) askSize k = (.ok (sched k).size, k + 1) := by
  show (ofResult (((sched k).answer .null).map Prod.fst), k + 1) = _
  simp only [Moment.answer, hk]
  rfl

theorem exec_askSize_error {k : Nat} {e : Errno} (hk : (sched k).failure = some e) :
    exec (observed sched) askSize k = (.error (.errno e), k + 1) := by
  show (ofResult (((sched k).answer .null).map Prod.fst), k + 1) = _
  simp only [Moment.answer, hk]
  rfl

theorem exec_fill (b : List UInt8) (k : Nat) :
    exec (observed sched) (fill b) k = (.ok ((sched k).answer (.buf b)), k + 1) := rfl

/-- What the rest of a round makes of the fill's answer. -/
def afterFill (slack : Nat) (finish : List UInt8 → Outcome β) (rounds : Nat) (c : BufCall) :
    BufReply c → BufProg β
  | .ok (n, buf) => ExceptT.mk (pure (finish (buf.take n)))
  | .error e =>
    if e = ERANGE then do
      let cap ← askSize
      probeWith.loop slack finish rounds cap
    else throw (.errno e)

theorem loop_succ (rounds cap : Nat) :
    probeWith.loop slack finish (rounds + 1) cap
      = zeroed (cap + slack) >>= fun b => fill b >>= afterFill slack finish rounds (.buf b) := by
  rw [probeWith.loop]
  refine congrArg (zeroed (cap + slack) >>= ·) (funext fun b => ?_)
  refine congrArg (fill b >>= ·) (funext fun r => ?_)
  rcases r with e | ⟨n, b⟩ <;> rfl

/-- A round fills first. -/
theorem exec_round (rounds k : Nat) :
    exec (observed sched) (probeWith.loop slack finish (rounds + 1) (sched k).size) (k + 1)
      = exec (observed sched) (afterFill slack finish rounds _
          ((sched (k + 1)).answer (fillCall slack (sched k).size))) (k + 2) := by
  have hfits : (sched k).size + slack ≤ isizeMax := (sched k).fits
  rw [loop_succ, exec_zeroed hfits, exec_bind_ok (exec_fill _ _)]
  rfl

theorem events_round (rounds k : Nat) :
    events (observed sched) (probeWith.loop slack finish (rounds + 1) (sched k).size) (k + 1)
      = ⟨_, (sched (k + 1)).answer (fillCall slack (sched k).size)⟩ ::
        events (observed sched) (afterFill slack finish rounds _
          ((sched (k + 1)).answer (fillCall slack (sched k).size))) (k + 2) := by
  have hfits : (sched k).size + slack ≤ isizeMax := (sched k).fits
  rw [loop_succ, events_zeroed hfits, events_bind_ok (exec_fill _ _)]
  rfl

/-- **The loop does what `Fills` describes**: it makes those calls, and ends with that. -/
theorem loop_fills (sched : Nat → Moment slack) (rounds k : Nat) :
    ∃ cs o, Fills sched rounds k cs o ∧
      (events (observed sched) (probeWith.loop slack finish rounds (sched k).size) (k + 1)).map
        Sigma.fst = cs ∧
      (exec (observed sched) (probeWith.loop slack finish rounds (sched k).size) (k + 1)).1
        = o.result finish := by
  induction rounds generalizing k with
  | zero => exact ⟨[], .gaveUp, .exhausted k, rfl, rfl⟩
  | succ rounds ih =>
    rw [exec_round, events_round, List.map_cons]
    -- one case for each way a round of `Fills` can go
    rcases hfail : (sched (k + 1)).failure with _ | e
    · by_cases hzero : (sched k).size + slack = 0
      · rw [Moment.answer_empty hfail hzero]
        refine ⟨_, _, .empty hfail hzero, rfl, ?_⟩
        show finish (List.take _ []) = finish []
        rw [List.take_nil]
      by_cases hle : (sched (k + 1)).size ≤ (sched k).size
      · obtain ⟨rest, hanswer⟩ := Moment.answer_filled hfail hzero hle
        rw [hanswer]
        refine ⟨_, _, .filled hfail hle, rfl, ?_⟩
        show finish (List.take _ (_ ++ rest)) = finish _
        rw [Moment.size, List.take_left]
      · -- `ERANGE`: the size is asked for again, and another round follows
        rw [Moment.answer_grown hfail hzero (Nat.lt_of_not_le hle), afterFill, if_pos rfl]
        rcases hfail' : (sched (k + 2)).failure with _ | e
        · obtain ⟨cs, o, hfills, hcs, ho⟩ := ih (k + 2)
          refine ⟨_, o, .grown hfail (Nat.lt_of_not_le hle) hfail' hfills, ?_, ?_⟩
          · rw [events_bind_ok (exec_askSize_ok hfail'), List.map_append, hcs]
            rfl
          · rw [exec_bind_ok (exec_askSize_ok hfail'), ho]
        · refine ⟨_, _, .unprobed hfail (Nat.lt_of_not_le hle) hfail', ?_, ?_⟩
          · rw [events_bind_error (exec_askSize_error hfail')]
            rfl
          · rw [exec_bind_error (exec_askSize_error hfail')]
            rfl
    · have hne : e ≠ ERANGE := by
        rintro rfl
        exact (sched (k + 1)).failure_ne hfail
      rw [Moment.answer_failed hfail, afterFill, if_neg hne]
      exact ⟨_, _, .failed hfail, rfl, rfl⟩

end Loop

/-! ### Probes -/

/-- What `probe_str` makes of the bytes of an object: the string they encode, or `EINVAL` when they
encode none. -/
inductive Decodes (b : List UInt8) : Outcome String → Prop
  | string {s : String} : utf8 s = b → Decodes b (.ok s)
  | invalid : ¬ IsUtf8 b → Decodes b (.error (.errno EINVAL))

theorem decodes_decodeUtf8 (b : List UInt8) : Decodes b (decodeUtf8 b) := by
  unfold decodeUtf8
  cases h : fromUtf8 b with
  | some s => exact .string (fromUtf8_eq_some.mp h)
  | none => exact .invalid (fromUtf8_eq_none.mp h)

/-- **A probe is linearizable.**  `Becomes b r` says that `r` may be returned for an object with the
bytes `b`. -/
structure Linearizable {β : Type} (Becomes : List UInt8 → Outcome β → Prop)
    (sched : Nat → Moment slack) (calls : List BufCall) (result : Outcome β) : Prop where
  calls_le : calls.length ≤ 9
  /-- It returns: it does not panic, and its rounds are enough. -/
  returns : (∃ v, result = .ok v) ∨ ∃ e, result = .error (.errno e)
  /-- An `Ok` result is made of the contents at one of the calls. -/
  ok : ∀ v, result = .ok v → ∃ k < calls.length, Becomes (sched k).contents (.ok v)
  /-- `ERANGE` takes four fills, each of which found the object larger than it was at the call
  before it, which asked for the size. -/
  erange : result = .error (.errno ERANGE) → calls.length = 9 ∧ ∀ j < 4,
    calls[2 * j]? = some .null ∧
    calls[2 * j + 1]? = some (fillCall slack (sched (2 * j)).size) ∧
    (sched (2 * j)).size < (sched (2 * j + 1)).size
  /-- Any other error is that of the last call, or what the contents at a call became. -/
  errno : ∀ e, e ≠ ERANGE → result = .error (.errno e) →
    (sched (calls.length - 1)).failure = some e ∨
    ∃ k < calls.length, Becomes (sched k).contents (.error (.errno e))
  /-- A call that fails is the last one, and its error is returned unchanged. -/
  failure : ∀ k < calls.length, ∀ e, (sched k).failure = some e →
    k + 1 = calls.length ∧ result = .error (.errno e)
  /-- A fill that finds the object no larger than it was ends the probe, with what its contents
  become. -/
  settled : ∀ j, 2 * j + 1 < calls.length → (sched (2 * j + 1)).failure = none →
    (sched (2 * j + 1)).size ≤ (sched (2 * j)).size →
    2 * j + 2 = calls.length ∧ Becomes (sched (2 * j + 1)).contents result

section Probes

open Prog

variable {β : Type} {finish : List UInt8 → Outcome β} {Becomes : List UInt8 → Outcome β → Prop}
  {sched : Nat → Moment slack}

/-- The size cannot be had. -/
theorem linearizable_of_failure {e : Errno} (he : (sched 0).failure = some e) :
    Linearizable Becomes sched [.null] (.error (.errno e)) := by
  have hne : e ≠ ERANGE := by
    rintro rfl
    exact (sched 0).failure_ne he
  refine ⟨by decide, .inr ⟨e, rfl⟩, ?_, ?_, ?_, ?_, ?_⟩
  · intro v hv
    cases hv
  · intro herr
    cases herr
    exact absurd rfl hne
  · intro e' _ herr
    cases herr
    exact .inl he
  · intro k hk e' he'
    obtain rfl : k = 0 := Nat.lt_one_iff.mp hk
    obtain rfl := Option.some.inj (he.symm.trans he')
    exact ⟨rfl, rfl⟩
  · intro j hj
    simp at hj

/-- `ERANGE` is given up with: neither the bytes read nor a call that fails gives it. -/
theorem Fills.eq_gaveUp (hfinish : ∀ b, (∃ v, finish b = .ok v) ∨
    ∃ e, e ≠ ERANGE ∧ finish b = .error (.errno e)) {rounds k : Nat} {cs : List BufCall}
    {o : Ended} (h : Fills sched rounds k cs o)
    (herr : o.result finish = .error (.errno ERANGE)) : o = .gaveUp := by
  cases o with
  | read b =>
    rcases hfinish b with ⟨v, hv⟩ | ⟨e, hne, he⟩
    · cases hv.symm.trans herr
    · cases he.symm.trans herr
      exact absurd rfl hne
  | failed e =>
    cases herr
    exact absurd (h.of_failed rfl).2 (sched _).failure_ne
  | gaveUp => rfl

/-- The calls of a probe that gave up. -/
theorem Fills.outgrown {rounds : Nat} {cs : List BufCall} (h : Fills sched rounds 0 cs .gaveUp) :
    cs.length = 2 * rounds ∧ ∀ j < rounds,
      (.null :: cs)[2 * j]? = some .null ∧
      (.null :: cs)[2 * j + 1]? = some (fillCall slack (sched (2 * j)).size) ∧
      (sched (2 * j)).size < (sched (2 * j + 1)).size := by
  obtain ⟨hlen, hall⟩ := h.of_gaveUp rfl
  refine ⟨hlen, fun j hj => ?_⟩
  obtain ⟨hfill, -, hgrown⟩ := hall j hj
  rw [Nat.zero_add] at hfill hgrown
  rw [Nat.zero_add] at hgrown
  refine ⟨?_, hfill, hgrown⟩
  -- the call before a fill asks for the size: the first one, or the one that ends a round
  cases j with
  | zero => rfl
  | succ j => exact (hall j (by omega)).2.1

/-- The rounds of a probe that was told the size. -/
theorem linearizable_of_fills (hbecomes : ∀ b, Becomes b (finish b))
    (hfinish : ∀ b, (∃ v, finish b = .ok v) ∨ ∃ e, e ≠ ERANGE ∧ finish b = .error (.errno e))
    (h0 : (sched 0).failure = none)
    {cs : List BufCall} {o : Ended} (h : Fills sched 4 0 cs o) :
    Linearizable Becomes sched (.null :: cs) (o.result finish) := by
  refine ⟨?_, ?_, ?_, ?_, ?_, ?_, ?_⟩
  · have := h.length_le
    simp only [List.length_cons]
    omega
  · cases o with
    | read b => exact (hfinish b).imp_right fun ⟨e, _, he⟩ => ⟨e, he⟩
    | failed e => exact .inr ⟨e, rfl⟩
    | gaveUp => exact .inr ⟨ERANGE, rfl⟩
  · intro v hv
    cases o with
    | read b =>
      obtain ⟨j, hj, rfl⟩ := h.of_read rfl
      rw [Nat.zero_add] at hv
      exact ⟨j, Nat.lt_succ_of_le hj, hv ▸ hbecomes _⟩
    | failed e => cases hv
    | gaveUp => cases hv
  · intro herr
    obtain rfl := h.eq_gaveUp hfinish herr
    obtain ⟨hlen, hall⟩ := h.outgrown
    exact ⟨congrArg Nat.succ hlen, hall⟩
  · intro e hne herr
    cases o with
    | read b =>
      obtain ⟨j, hj, rfl⟩ := h.of_read rfl
      rw [Nat.zero_add] at herr
      exact .inr ⟨j, Nat.lt_succ_of_le hj, herr ▸ hbecomes _⟩
    | failed e' =>
      cases herr
      left
      rw [List.length_cons, Nat.add_sub_cancel, ← Nat.zero_add cs.length]
      exact (h.of_failed rfl).2
    | gaveUp =>
      cases herr
      exact absurd rfl hne
  · intro k hk e he
    cases k with
    | zero =>
      rw [h0] at he
      cases he
    | succ k =>
      rw [← Nat.zero_add (k + 1)] at he
      obtain ⟨hlen, rfl⟩ := h.failure k (Nat.lt_of_succ_lt_succ hk) he
      exact ⟨congrArg Nat.succ hlen, rfl⟩
  · intro j hj hnone hle
    have hsettled := h.settled j (Nat.lt_of_succ_lt_succ hj)
    rw [Nat.zero_add, Nat.zero_add] at hsettled
    obtain ⟨hlen, rfl⟩ := hsettled hnone hle
    exact ⟨congrArg Nat.succ hlen, hbecomes _⟩

/-- Both probes are of this form. -/
theorem probeWith_linearizable (hbecomes : ∀ b, Becomes b (finish b))
    (hfinish : ∀ b, (∃ v, finish b = .ok v) ∨ ∃ e, e ≠ ERANGE ∧ finish b = .error (.errno e))
    (sched : Nat → Moment slack) :
    Linearizable Becomes sched ((probeWith slack finish).run.calls (observed sched) 0)
      (exec (observed sched) (probeWith slack finish) 0).1 := by
  have hcalls : (probeWith slack finish).run.calls (observed sched) 0
      = (events (observed sched) (probeWith slack finish) 0).map Sigma.fst := rfl
  rw [hcalls, probeWith]
  rcases hfail : (sched 0).failure with _ | e
  · obtain ⟨cs, o, hfills, hcs, ho⟩ := loop_fills finish sched 4 0
    rw [events_bind_ok (exec_askSize_ok hfail), exec_bind_ok (exec_askSize_ok hfail), ho,
      List.map_append, hcs]
    exact linearizable_of_fills hbecomes hfinish hfail hfills
  · rw [events_bind_error (exec_askSize_error hfail), exec_bind_error (exec_askSize_error hfail)]
    exact linearizable_of_failure hfail

theorem probe_linearizable (sched : Nat → Moment 0) :
    Linearizable (fun b r => r = .ok b) sched (probe.run.calls (observed sched) 0)
      (exec (observed sched) probe 0).1 := by
  refine probeWith_linearizable (fun b => ?_) (fun b => .inl ⟨b, rfl⟩) sched
  rfl

theorem probeStr_linearizable (sched : Nat → Moment 1) :
    Linearizable Decodes sched (probeStr.run.calls (observed sched) 0)
      (exec (observed sched) probeStr 0).1 := by
  refine probeWith_linearizable decodes_decodeUtf8 (fun b => ?_) sched
  unfold decodeUtf8
  cases fromUtf8 b with
  | some v => exact .inl ⟨v, rfl⟩
  | none => exact .inr ⟨EINVAL, by decide, rfl⟩

/-- **`probe` and `probe_str` are linearizable**, whatever the others do between their calls. -/
theorem probes_linearizable :
    (∀ sched : Nat → Moment 0, Linearizable (fun b r => r = .ok b) sched
      (probe.run.calls (observed sched) 0) (exec (observed sched) probe 0).1) ∧
    ∀ sched : Nat → Moment 1, Linearizable Decodes sched
      (probeStr.run.calls (observed sched) 0) (exec (observed sched) probeStr 0).1 :=
  ⟨probe_linearizable, probeStr_linearizable⟩

theorem none_ne_ERANGE : (none : Option Errno) ≠ some ERANGE := nofun

/-- An object that is given a second byte right after the first call. -/
def growing (hslack : slack ≤ 1) (k : Nat) : Moment slack where
  contents := if k = 0 then [0x61] else [0x61, 0xff]
  fits := by
    unfold isizeMax
    split_ifs <;> simp only [List.length_cons, List.length_nil] <;> omega
  failure := none
  failure_ne := none_ne_ERANGE

/-- The first fill finds too small a buffer, and the second one ends the probe: with the two bytes,
which are not UTF-8. -/
theorem probes_linearizable_growing :
    (exec (observed (growing (Nat.zero_le 1))) probe 0).1 = .ok [0x61, 0xff] ∧
    (exec (observed (growing (Nat.le_refl 1))) probeStr 0).1 = .error (.errno EINVAL) := by
  obtain ⟨hprobe, hprobeStr⟩ := probes_linearizable
  constructor
  · exact ((hprobe (growing (Nat.zero_le 1))).settled 1 (by decide) rfl (Nat.le_refl 2)).2
  · have hsettled := (hprobeStr (growing (Nat.le_refl 1))).settled
    obtain ⟨-, hdecodes⟩ := hsettled 1 (by decide) rfl (Nat.le_refl 2)
    generalize (exec (observed (growing (Nat.le_refl 1))) probeStr 0).1 = result at hdecodes
    cases hdecodes with
    | string hs => exact absurd ⟨_, hs⟩ (by decide : ¬ IsUtf8 [0x61, 0xff])
    | invalid => rfl

end Probes

end Peios.Util
