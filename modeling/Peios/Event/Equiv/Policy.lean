import Peios.Event.Equiv.Emit
import Peios.Event.Policy
import Peios.Interaction.Concurrent

/-!
# Emitting under a policy that changes

`emits_followPolicy` says what calls of `emit_with` do while the policy changes and others emit:
each follows a policy that is in force between its start and its end, builds a payload only if that
policy switches the type on, and has emitted that payload when it returns `true`.
-/

namespace Peios.Event

open Interaction ByteString Prog

/-! ### What libpeios answers -/

/-- What the registry says of event types: on, off, or nothing. -/
abbrev Policy := Bytes → Option Bool

/-- Whether events of a type are switched on.  Essential ones always are, and where the registry
says nothing it is standard ones that are. -/
def Policy.decides (policy : Policy) (eventType : Bytes) (tier : Tier) : Bool :=
  tier = .essential || (policy eventType).getD (tier = .standard)

/-- Who has emitted an event. -/
inductive Emitter where
  | caller
  | other
  deriving DecidableEq

/-- The policies that there have been, the payloads that the caller has built, and all events. -/
structure Emitted where
  earlier : List Policy
  policy : Policy
  built : List Bytes
  log : List (Emitter × EventEntry)

/-- The policies, up to the one in force. -/
def Emitted.policies (w : Emitted) : List Policy := w.earlier ++ [w.policy]

/-- The caller's events. -/
def Emitted.own (w : Emitted) : List EventEntry :=
  (w.log.filter fun i => i.1 = .caller).map Prod.snd

/-- What others do. -/
inductive Others : Emitted → Emitted → Prop where
  | changes (w : Emitted) (policy : Policy) :
      Others w { w with earlier := w.earlier ++ [w.policy], policy }
  | emits (w : Emitted) (entry : EventEntry) :
      Others w { w with log := w.log ++ [(.other, entry)] }

/-- What calls are answered, and what they leave; `valid` are the names that event types can have.
-/
inductive Answers (valid : Bytes → Prop) : (c : PolicyCall) → Emitted → PolicyReply c → Emitted → Prop
  where
  | decides {w : Emitted} {eventType : Bytes} {tier : Tier} {errno : Errno} :
      valid eventType → Answers valid (.enabled eventType tier) w
        (if w.policy.decides eventType tier then 1 else 0, errno) w
  | malformed {w : Emitted} {eventType : Bytes} {tier : Tier} :
      ¬ valid eventType → Answers valid (.enabled eventType tier) w (-1, EINVAL) w
  | builds {w : Emitted} (payload : Bytes) :
      Answers valid .build w payload { w with built := w.built ++ [payload] }
  | emits {w : Emitted} {entry : EventEntry} :
      Answers valid (.emitting (.emit entry)) w (.ok ())
        { w with log := w.log ++ [(.caller, entry)] }
  | notEmitted {w : Emitted} {entry : EventEntry} (e : Errno) :
      Answers valid (.emitting (.emit entry)) w (.error e) w

/-! ### What comes of a call -/

/-- What a call of `emit_with` may come to under a policy: what it returns, the payloads that it has
built, and the events that it has emitted. -/
inductive Emission (valid : Bytes → Prop) (policy : Policy) (eventType : String) (tier : Tier) :
    Outcome Bool → List Bytes → List EventEntry → Prop where
  | tooLong : 2 ^ 16 ≤ (utf8 eventType).length →
      Emission valid policy eventType tier (.error (.errno EINVAL)) [] []
  | malformed : ¬ valid (utf8 eventType) →
      Emission valid policy eventType tier (.error (.errno EINVAL)) [] []
  | off : policy.decides (utf8 eventType) tier = false →
      Emission valid policy eventType tier (.ok false) [] []
  | tooLarge (payload : Bytes) : policy.decides (utf8 eventType) tier = true →
      2 ^ 32 ≤ payload.length →
      Emission valid policy eventType tier (.error (.errno EINVAL)) [payload] []
  | notEmitted (payload : Bytes) (e : Errno) : policy.decides (utf8 eventType) tier = true →
      Emission valid policy eventType tier (.error (.errno e)) [payload] []
  | emitted (payload : Bytes) : policy.decides (utf8 eventType) tier = true →
      Emission valid policy eventType tier (.ok true) [payload]
        [{ eventType := utf8 eventType, payload }]

/-- The policies that have been in force from `s` on until `t`. -/
def Emitted.policiesSince (s t : Emitted) : List Policy := t.policies.drop s.earlier.length

/-- What a call of `emit_with` has done between `s` and `t`: it has followed a policy that was in
force in between, and all that was built and emitted is its own. -/
structure Follows (valid : Bytes → Prop) (request : String × Tier) (s : Emitted)
    (outcome : Outcome Bool) (t : Emitted) : Prop where
  emission : ∃ policy ∈ s.policiesSince t, ∃ built events,
    Emission valid policy request.1 request.2 outcome built events ∧
      t.built = s.built ++ built ∧ t.own = s.own ++ events
  kept : s.policies <+: t.policies

variable {valid : Bytes → Prop} {request : String × Tier} {s t u : Emitted}
  {requests : List (String × Tier)} {outcomes : List (Outcome Bool)}

/-- Others change the policy and emit, and nothing else. -/
structure Elapsed (s t : Emitted) : Prop where
  kept : s.policies <+: t.policies
  built : t.built = s.built
  own : t.own = s.own

theorem elapsed_of_others (h : Others s t) : Elapsed s t := by
  cases h with
  | changes policy => exact ⟨List.prefix_append .., rfl, rfl⟩
  | emits entry => exact ⟨List.prefix_refl _, rfl, by simp [Emitted.own]⟩

theorem Elapsed.refl (s : Emitted) : Elapsed s s := ⟨List.prefix_refl _, rfl, rfl⟩

theorem Elapsed.stable (s : Emitted) : Stable Others (Elapsed s) := by
  intro t t' hstep h
  have helapsed := elapsed_of_others hstep
  exact ⟨h.kept.trans helapsed.kept, helapsed.built.trans h.built, helapsed.own.trans h.own⟩

/-- While a call is under way: it has asked a policy that was in force then, and built and emitted
this. -/
structure Asking (s : Emitted) (policy : Policy) (built : List Bytes) (events : List EventEntry)
    (t : Emitted) : Prop where
  asked : policy ∈ s.policiesSince t
  kept : s.policies <+: t.policies
  built : t.built = s.built ++ built
  own : t.own = s.own ++ events

variable {policy : Policy} {built : List Bytes} {events : List EventEntry}

/-- The policy that is asked is the one in force. -/
theorem Elapsed.asking (h : Elapsed s t) : Asking s t.policy [] [] t where
  asked := by
    have hle : s.earlier.length ≤ t.earlier.length := by
      have hlen := h.kept.length_le
      unfold Emitted.policies at hlen
      rw [List.length_append, List.length_append] at hlen
      exact Nat.le_of_add_le_add_right hlen
    unfold Emitted.policiesSince Emitted.policies
    rw [List.drop_append_of_le_length hle]
    exact List.mem_append_right _ (List.mem_singleton.mpr rfl)
  kept := h.kept
  built := h.built.trans (List.append_nil _).symm
  own := h.own.trans (List.append_nil _).symm

theorem Asking.stable (s : Emitted) (policy : Policy) (built : List Bytes)
    (events : List EventEntry) : Stable Others (Asking s policy built events) := by
  intro t t' hstep h
  have helapsed := elapsed_of_others hstep
  exact {
    asked := (helapsed.kept.drop _).subset h.asked
    kept := h.kept.trans helapsed.kept
    built := helapsed.built.trans h.built
    own := helapsed.own.trans h.own }

/-- A payload is built. -/
theorem Asking.build (h : Asking s policy built events t) (payload : Bytes) :
    Asking s policy (built ++ [payload]) events { t with built := t.built ++ [payload] } where
  asked := h.asked
  kept := h.kept
  built := by
    show t.built ++ [payload] = _
    rw [h.built, List.append_assoc]
  own := h.own

/-- An event is emitted. -/
theorem Asking.emit (h : Asking s policy built events t) (entry : EventEntry) :
    Asking s policy built (events ++ [entry]) { t with log := t.log ++ [(.caller, entry)] } where
  asked := h.asked
  kept := h.kept
  built := h.built
  own := by
    have hlog : ({ t with log := t.log ++ [(.caller, entry)] } : Emitted).own
        = t.own ++ [entry] := by
      simp [Emitted.own]
    rw [hlog, h.own, List.append_assoc]

/-- The call returns. -/
theorem Asking.follows (h : Asking s policy built events t) {outcome : Outcome Bool}
    (hone : Emission valid policy request.1 request.2 outcome built events) :
    Follows valid request s outcome t :=
  ⟨⟨policy, h.asked, built, events, hone, h.built, h.own⟩, h.kept⟩

theorem Follows.stable (valid : Bytes → Prop) (request : String × Tier) (s : Emitted)
    (outcome : Outcome Bool) : Stable Others (Follows valid request s outcome) := by
  rintro t t' hstep ⟨⟨policy, hpolicy, built, events, hone, hbuilt, hown⟩, hkept⟩
  have hasking : Asking s policy built events t := ⟨hpolicy, hkept, hbuilt, hown⟩
  exact (Asking.stable s policy built events t t' hstep hasking).follows hone

/-! ### One call -/

theorem emitWith_of_long {eventType : String} {tier : Tier}
    (h : 2 ^ 16 ≤ (utf8 eventType).length) :
    (EventPolicy.emitWith eventType tier).run = .ret (.error (.errno EINVAL)) := by
  unfold EventPolicy.emitWith EventPolicy.enabled
  rw [tryFrom_of_le h]
  rfl

/-- What is done once the payload is there. -/
def emitPayload (eventType : String) (payload : Bytes) : Prog PolicyCall PolicyReply (Outcome Bool) :=
  if payload.length < 2 ^ 32 then
    .call (.emitting (.emit { eventType := utf8 eventType, payload })) fun r =>
      .ret ((ofResult r).map fun _ => true)
  else .ret (.error (.errno EINVAL))

theorem emitWith_of_short {eventType : String} {tier : Tier}
    (h : (utf8 eventType).length < 2 ^ 16) :
    (EventPolicy.emitWith eventType tier).run = .call (.enabled (utf8 eventType) tier) fun r =>
      match EventPolicy.decided r with
      | .error e => .ret (.error e)
      | .ok false => .ret (.ok false)
      | .ok true => .call .build fun payload => emitPayload eventType payload := by
  unfold EventPolicy.emitWith EventPolicy.enabled
  rw [tryFrom_of_lt h]
  show Prog.call (PolicyCall.enabled ((utf8 eventType).take (utf8 eventType).length) tier) _ = _
  rw [List.take_length]
  refine congrArg (Prog.call (PolicyCall.enabled (utf8 eventType) tier)) ?_
  funext r
  show (Prog.ret (EventPolicy.decided r)).bind _ = _
  cases EventPolicy.decided r with
  | error e => rfl
  | ok b =>
    cases b with
    | false => rfl
    | true =>
      refine congrArg (Prog.call PolicyCall.build) (funext fun payload => ?_)
      show (interpE _ (emit eventType payload)).run.bind _ = _
      unfold emit emitPayload
      by_cases hlen : payload.length < 2 ^ 32
      · rw [raw_of_fits ⟨h, hlen⟩, if_pos hlen]
        refine congrArg (Prog.call (PolicyCall.emitting _)) (funext fun reply => ?_)
        cases reply with
        | error e => rfl
        | ok _ => rfl
      · rw [raw_of_not_fits fun hfits => hlen hfits.2, if_neg hlen]
        rfl

/-- Emitting the payload that has been built. -/
theorem ensures_emitPayload (s : Emitted) {eventType : String} {tier : Tier} {payload : Bytes}
    (hpolicy : policy.decides (utf8 eventType) tier = true) :
    Ensures Others (Answers valid) (Asking s policy [payload] []) (emitPayload eventType payload)
      (Follows valid (eventType, tier) s) := by
  unfold emitPayload
  split_ifs with hlen
  · let entry : EventEntry := { eventType := utf8 eventType, payload }
    let M (r : Except Errno Unit) (t : Emitted) : Prop :=
      Follows valid (eventType, tier) s ((ofResult r).map fun _ => true) t
    refine .call (M := M) (Asking.stable _ _ _ _) ?_ fun r =>
      .ret (Follows.stable _ _ _ _) fun t ht => ht
    rintro t r t' ht hanswer
    cases hanswer with
    | emits => exact (ht.emit entry).follows (.emitted payload hpolicy)
    | notEmitted e => exact ht.follows (.notEmitted payload e hpolicy)
  · exact .ret (Follows.stable _ _ _ _) fun t ht =>
      ht.follows (.tooLarge payload hpolicy (not_lt.mp hlen))

/-- Building a payload, and emitting it. -/
theorem ensures_build (s : Emitted) {eventType : String} {tier : Tier}
    (hpolicy : policy.decides (utf8 eventType) tier = true) :
    Ensures Others (Answers valid) (Asking s policy [] [])
      (.call .build fun payload => emitPayload eventType payload)
      (Follows valid (eventType, tier) s) := by
  let M (payload : Bytes) (t : Emitted) : Prop := Asking s policy [payload] [] t
  refine .call (M := M) (Asking.stable _ _ _ _) ?_ fun payload => ensures_emitPayload s hpolicy
  rintro t payload t' ht hanswer
  cases hanswer with
  | builds => exact ht.build payload

/-- What is known when the policy has answered. -/
inductive Decided (valid : Bytes → Prop) (s : Emitted) (eventType : String) (tier : Tier)
    (t : Emitted) : Outcome Bool → Prop where
  | malformed (policy : Policy) : ¬ valid (utf8 eventType) → Asking s policy [] [] t →
      Decided valid s eventType tier t (.error (.errno EINVAL))
  | decides {policy : Policy} {b : Bool} : policy.decides (utf8 eventType) tier = b →
      Asking s policy [] [] t → Decided valid s eventType tier t (.ok b)

/-- One call, from a state on that others may have changed. -/
theorem ensures_emitWith (request : String × Tier) (s : Emitted) :
    Ensures Others (Answers valid) (Elapsed s) (EventPolicy.emitWith request.1 request.2).run
      (Follows valid request s) := by
  obtain ⟨eventType, tier⟩ := request
  by_cases hlen : (utf8 eventType).length < 2 ^ 16
  · rw [emitWith_of_short hlen]
    let M (r : Int32 × Errno) (t : Emitted) : Prop :=
      Decided valid s eventType tier t (EventPolicy.decided r)
    refine .call (M := M) (Elapsed.stable _) ?_ fun r => ?_
    · rintro t r t' ht hanswer
      cases hanswer with
      | malformed hmalformed => exact .malformed _ hmalformed ht.asking
      | decides hvalid =>
        have hdecided : ∀ (b : Bool) (errno : Errno),
            EventPolicy.decided (if b then 1 else 0, errno) = .ok b := by
          rintro (_ | _) errno
          · rfl
          · rfl
        show Decided _ _ _ _ _ _
        rw [hdecided]
        exact .decides rfl ht.asking
    · show Ensures _ _ (fun t => Decided _ _ _ _ t (EventPolicy.decided r)) _ _
      cases EventPolicy.decided r with
      | error e =>
        refine .ret (Follows.stable _ _ _ _) fun t ht => ?_
        cases ht with
        | malformed policy hmalformed hasking => exact hasking.follows (.malformed hmalformed)
      | ok b =>
        cases b with
        | false =>
          refine .ret (Follows.stable _ _ _ _) fun t ht => ?_
          cases ht with
          | decides hpolicy hasking => exact hasking.follows (.off hpolicy)
        | true =>
          intro t outcome u ht
          cases ht with
          | decides hpolicy hasking => exact ensures_build s hpolicy t outcome u hasking
  · rw [emitWith_of_long (not_lt.mp hlen)]
    exact .ret (Follows.stable _ _ _ _) fun t ht =>
      ht.asking.follows (.tooLong (not_lt.mp hlen))

/-- While the policy changes and others emit, calls of `emit_with` follow, one after another, each a
policy that is in force between its start and its end: a payload is built only for an event type
that the policy switches on, each call that returns `true` has emitted the payload that it has
built, and nothing else is emitted. -/
theorem emits_followPolicy
    (hrun : Concurrent Others (Answers valid) s
      (requests.mapM fun request => (EventPolicy.emitWith request.1 request.2).run) outcomes u) :
    Each Others (Answers valid) (fun request => (EventPolicy.emitWith request.1 request.2).run)
      (Follows valid) s requests outcomes u := by
  refine Ensures.each (fun request s => ?_) requests hrun
  refine (ensures_emitWith request s).mono ?_ fun _ _ h => h
  rintro t rfl
  exact .refl t

/-- Nothing is set. -/
def unset : Emitted := { earlier := [], policy := fun _ => none, built := [], log := [] }

/-- Debug events have been switched on after one call, and another has emitted one. -/
def switchedOn : Emitted where
  earlier := [unset.policy]
  policy := fun _ => some true
  built := [[0xc0]]
  log := [(.caller, { eventType := utf8 "a.b.c", payload := [0xc0] })]

theorem emits_followPolicy_unset :
    Each Others (Answers fun _ => True)
      (fun request => (EventPolicy.emitWith request.1 request.2).run) (Follows fun _ => True) unset
      [("a.b.c", .debug), ("a.b.c", .debug)] [.ok false, .ok true] switchedOn := by
  have hoff : Answers (fun _ => True) (.enabled (utf8 "a.b.c") .debug) unset (0, 0) unset :=
    .decides trivial
  have hon : ∀ w : Emitted, w.policy = (fun _ => some true) →
      Answers (fun _ => True) (.enabled (utf8 "a.b.c") .debug) w (1, 0) w := by
    rintro ⟨earlier, policy, built, log⟩ rfl
    exact .decides trivial
  have hrun : Concurrent Others (Answers fun _ => True) unset
      ([("a.b.c", Tier.debug), ("a.b.c", .debug)].mapM fun request =>
        (EventPolicy.emitWith request.1 request.2).run) [.ok false, .ok true] switchedOn :=
    .call hoff (.env (.changes unset fun _ => some true)
      (.call (hon _ rfl) (.call (.builds [0xc0]) (.call .emits (.ret _ _)))))
  exact emits_followPolicy hrun

end Peios.Event
