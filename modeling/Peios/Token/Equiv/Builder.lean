import Peios.Interaction.Latch
import Peios.Token.Builder

/-!
# Correctness of `TokenBuilder`

`TokenLib` is what is assumed of libpeios: a builder that latches the error of a setter it refuses,
until it is reset.  `History` is what has happened since the last reset, told without the two
errors: what libpeios holds, and which setters were rejected.  `Tracks` relates it to the two
halves of the builder; `tracks_op` says that every operation keeps it.

`mints_unrejected` is the result: nothing is serialized or minted after a rejected setter.
-/

namespace Peios.Token

open Interaction Prog Latched ByteString
open Security (SidLib SidRef)

/-! ### What libpeios does -/

/-- libpeios' token builder, over what it holds. -/
structure TokenLib (B : Type) where
  /-- What an empty builder holds. -/
  fresh : B
  /-- What it makes of a part, and the `errno` if it refuses it. -/
  step : B → Part → B × Option Errno
  step_ne_zero : ∀ held part, (step held part).2 ≠ some 0
  /-- `peios_token_builder_bytes`. -/
  bytes : Latched B Errno → Except Errno (Option Bytes)
  /-- `peios_token_builder_create`. -/
  create : Latched B Errno → Except Errno Nat

namespace TokenLib

variable {B : Type} (lib : TokenLib B)

/-- An empty builder. -/
def empty : Latched B Errno := ⟨lib.fresh, none⟩

/-- What libpeios answers. -/
def builder : Handler BuilderCall BuilderReply (Latched B Errno)
  | .new, _ => (true, lib.empty)
  | .reset, _ => ((), lib.empty)
  | .set part, s => ((), Latched.push lib.step s part)
  | .error, s => (s.error.getD 0, s)
  | .bytes, s => (lib.bytes s, s)
  | .create, s => (lib.create s, s)

/-- A run makes the call `c`. -/
def Reaches {α : Type} (c : BuilderCall) (p : BuilderProg α) (s : Latched B Errno) : Prop :=
  c ∈ (events lib.builder p s).map Sigma.fst

end TokenLib

/-! ### Setters -/

/-- A setter with its arguments. -/
inductive Setter (sids : SidLib) where
  | user (sid : SidRef sids)
  | addGroup (sid : SidRef sids) (attrs : UInt32)
  | privileges (present enabled : UInt64)
  | tokenType (ty : TokenType) (impLevel : ImpersonationLevel)
  | integrity (level : UInt32)
  | session (session : UInt64)
  | ownerIndex (index : UInt32)
  | primaryGroupIndex (index : UInt32)
  | defaultDacl (acl : Bytes)
  | flags (flags : TokenFlags)
  | projectedIds (uid gid : UInt32)
  | supplementaryGids (gids : List UInt32)
  | mandatoryPolicy (policy : UInt32)
  | auditPolicy (policy : UInt32)
  | expiration (time : UInt64)
  | source (name : String) (sourceId : UInt64)
  | addRestrictedSid (sid : SidRef sids) (attrs : UInt32)
  | addDeviceGroup (sid : SidRef sids) (attrs : UInt32)
  | confinement (sid : SidRef sids)
  | addUserClaim (claim : Claim)
  | addDeviceClaim (claim : Claim)
  | lcsCredentials (creds : LcsCredentials)

namespace Setter

variable {sids : SidLib}

/-- The method. -/
def run (b : TokenBuilder) : Setter sids → BuilderProg TokenBuilder
  | user sid => b.user sid
  | addGroup sid attrs => b.addGroup sid attrs
  | privileges present enabled => b.privileges present enabled
  | tokenType ty impLevel => b.tokenType ty impLevel
  | integrity level => b.integrity level
  | session id => b.session id
  | ownerIndex index => b.ownerIndex index
  | primaryGroupIndex index => b.primaryGroupIndex index
  | defaultDacl acl => b.defaultDacl acl
  | flags f => b.flags f
  | projectedIds uid gid => b.projectedIds uid gid
  | supplementaryGids gids => b.supplementaryGids gids
  | mandatoryPolicy policy => b.mandatoryPolicy policy
  | auditPolicy policy => b.auditPolicy policy
  | expiration time => b.expiration time
  | source name id => b.source name id
  | addRestrictedSid sid attrs => b.addRestrictedSid sid attrs
  | addDeviceGroup sid attrs => b.addDeviceGroup sid attrs
  | confinement sid => b.confinement sid
  | addUserClaim claim => b.addUserClaim claim
  | addDeviceClaim claim => b.addDeviceClaim claim
  | lcsCredentials creds => b.lcsCredentials creds

/-- Rust rejects a claim name or a private layer name with a NUL, and a source name that is too
long. -/
def malformed : Setter sids → Bool
  | source name _ => SOURCE_NAME_LEN < (utf8 name).length
  | addUserClaim claim => 0 ∈ utf8 claim.name
  | addDeviceClaim claim => 0 ∈ utf8 claim.name
  | lcsCredentials creds => ∃ layer ∈ creds.privateLayers, 0 ∈ utf8 layer
  | _ => false

/-- A claim, as libpeios is passed it. -/
def claimPart (claim : Claim) : TokenClaim :=
  { name := utf8 claim.name, valueType := claim.values.valueType, flags := claim.flags,
    values := entriesU32 claim.values.toFfi }

/-- What libpeios is passed, if Rust does not reject it. -/
def part : Setter sids → Part
  | user sid => .user sid.bytes
  | addGroup sid attrs => .addGroup sid.bytes attrs
  | privileges present enabled => .privileges present enabled
  | tokenType ty impLevel => .type ty.toRaw impLevel.toRaw
  | integrity level => .integrity level
  | session id => .session id
  | ownerIndex index => .ownerIndex index
  | primaryGroupIndex index => .primaryGroupIndex index
  | defaultDacl acl => .defaultDacl acl
  | flags f => .flags f
  | projectedIds uid gid => .projectedIds uid gid
  | supplementaryGids gids => .suppGids (entriesU32 gids)
  | mandatoryPolicy policy => .mandatoryPolicy policy
  | auditPolicy policy => .auditPolicy policy
  | expiration time => .expiration time
  | source name id => .source (TokenBuilder.sourceField (utf8 name)) id
  | addRestrictedSid sid attrs => .addRestrictedSid sid.bytes attrs
  | addDeviceGroup sid attrs => .addDeviceGroup sid.bytes attrs
  | confinement sid => .confinement sid.bytes
  | addUserClaim claim => .addUserClaim (claimPart claim)
  | addDeviceClaim claim => .addDeviceClaim (claimPart claim)
  | lcsCredentials creds =>
    .lcsCredentials
      { scopes := entriesU32 creds.scopeGuids
        privateLayers := entriesU32 (creds.privateLayers.map utf8) }

/-! ### What a setter does -/

variable {b : TokenBuilder}

theorem withClaim_of_nul {claim : Claim} (h : 0 ∈ utf8 claim.name) (f : TokenClaim → Part) :
    b.withClaim claim f = return b.latch EINVAL := by
  have hnew : Registry.CString.new claim.name = .error EINVAL := dif_pos h
  unfold TokenBuilder.withClaim
  rw [hnew]

theorem withClaim_of_no_nul {claim : Claim} (h : 0 ∉ utf8 claim.name) (f : TokenClaim → Part) :
    b.withClaim claim f = b.set (f (claimPart claim)) := by
  have hnew : Registry.CString.new claim.name = .ok ⟨utf8 claim.name, h⟩ := dif_neg h
  unfold TokenBuilder.withClaim
  rw [hnew]
  rfl

/-- A list of strings becomes a list of C strings exactly when none has a NUL. -/
theorem mapM_cstring (l : List String) :
    (∃ e, (∃ s ∈ l, 0 ∈ utf8 s) ∧ l.mapM Registry.CString.new = .error e) ∨
    ∃ r, (¬ ∃ s ∈ l, 0 ∈ utf8 s) ∧ l.mapM Registry.CString.new = .ok r ∧
      r.map Registry.CString.bytes = l.map utf8 := by
  induction l with
  | nil => exact .inr ⟨[], by simp, rfl, rfl⟩
  | cons s l ih =>
    rw [List.mapM_cons]
    by_cases h : 0 ∈ utf8 s
    · have hnew : Registry.CString.new s = .error EINVAL := dif_pos h
      rw [hnew]
      exact .inl ⟨EINVAL, ⟨s, List.mem_cons_self, h⟩, rfl⟩
    · have hnew : Registry.CString.new s = .ok ⟨utf8 s, h⟩ := dif_neg h
      rw [hnew]
      rcases ih with ⟨e, ⟨t, ht, hnul⟩, hl⟩ | ⟨r, hnone, hl, hr⟩
      · rw [hl]
        exact .inl ⟨e, ⟨t, List.mem_cons_of_mem _ ht, hnul⟩, rfl⟩
      · rw [hl]
        refine .inr ⟨⟨utf8 s, h⟩ :: r, ?_, rfl, ?_⟩
        · rintro ⟨t, ht, hnul⟩
          rcases List.mem_cons.mp ht with rfl | ht
          · exact h hnul
          · exact hnone ⟨t, ht, hnul⟩
        · rw [List.map_cons, hr, List.map_cons]

/-- A setter that Rust rejects latches `EINVAL`. -/
theorem run_of_malformed {s : Setter sids} (h : s.malformed = true) :
    s.run b = return b.latch EINVAL := by
  cases s with
  | source name id => exact if_pos (of_decide_eq_true h)
  | addUserClaim claim => exact withClaim_of_nul (of_decide_eq_true h) _
  | addDeviceClaim claim => exact withClaim_of_nul (of_decide_eq_true h) _
  | lcsCredentials creds =>
    have hnul : ∃ layer ∈ creds.privateLayers, 0 ∈ utf8 layer := of_decide_eq_true h
    show b.lcsCredentials creds = _
    unfold TokenBuilder.lcsCredentials
    rcases mapM_cstring creds.privateLayers with ⟨e, -, hl⟩ | ⟨r, hnone, -⟩
    · rw [hl]
    · exact absurd hnul hnone
  | _ => cases h

/-- Any other passes its part to libpeios. -/
theorem run_of_wellFormed {s : Setter sids} (h : s.malformed = false) :
    s.run b = b.set s.part := by
  cases s with
  | source name id => exact if_neg (of_decide_eq_false h)
  | addUserClaim claim => exact withClaim_of_no_nul (of_decide_eq_false h) _
  | addDeviceClaim claim => exact withClaim_of_no_nul (of_decide_eq_false h) _
  | lcsCredentials creds =>
    have hnone : ¬ ∃ layer ∈ creds.privateLayers, 0 ∈ utf8 layer := of_decide_eq_false h
    show b.lcsCredentials creds = _
    unfold TokenBuilder.lcsCredentials
    rcases mapM_cstring creds.privateLayers with ⟨e, hnul, -⟩ | ⟨r, -, hl, hr⟩
    · exact absurd hnul hnone
    · rw [hl]
      dsimp only
      rw [hr]
      rfl
  | _ => rfl

end Setter

/-! ### Runs -/

/-- A call between `new` and the end. -/
inductive Op (sids : SidLib) where
  | set (setter : Setter sids)
  | reset

variable {sids : SidLib} {B α : Type} (lib : TokenLib B)

/-- The method. -/
def Op.run (b : TokenBuilder) : Op sids → BuilderProg TokenBuilder
  | set setter => setter.run b
  | reset => b.reset

/-- A new builder, the calls `ops`, and a last one. -/
def session (ops : List (Op sids)) (finish : TokenBuilder → BuilderProg α) : BuilderProg α := do
  let b ← TokenBuilder.new
  let b ← ops.foldlM Op.run b
  finish b

/-- What has happened since the last reset. -/
structure History (B : Type) where
  /-- What libpeios holds. -/
  held : B
  /-- The errors of the setters that were rejected, in the order of the calls. -/
  rejections : List Errno

namespace TokenLib

/-- Nothing has happened. -/
def start : History B := { held := lib.fresh, rejections := [] }

/-- A setter is rejected by Rust, which then does not call libpeios, or by libpeios. -/
def next (h : History B) : Op sids → History B
  | .set setter =>
    if setter.malformed then { h with rejections := h.rejections ++ [EINVAL] }
    else
      { held := (lib.step h.held setter.part).1
        rejections := h.rejections ++ (lib.step h.held setter.part).2.toList }
  | .reset => lib.start

/-- What has happened since the last reset of a new builder. -/
def history (ops : List (Op sids)) : History B := ops.foldl lib.next lib.start

end TokenLib

/-- The two halves of the builder are as the history says. -/
structure Tracks (h : History B) (b : TokenBuilder) (s : Latched B Errno) : Prop where
  held : s.inner = h.held
  clean : (b.pending = 0 ∧ s.error = none) ↔ h.rejections = []
  error_ne : s.error ≠ some 0

variable {lib} {h : History B} {b : TokenBuilder} {s : Latched B Errno}

theorem exec_builderCall (c : BuilderCall) (s : Latched B Errno) :
    exec lib.builder (builderCall c) s = (.ok (lib.builder c s).1, (lib.builder c s).2) := rfl

theorem tracks_start (lib : TokenLib B) : Tracks lib.start { pending := 0 } lib.empty where
  held := rfl
  clean := ⟨fun _ => rfl, fun _ => ⟨rfl, rfl⟩⟩
  error_ne := fun h => nomatch h

/-- A setter rejected by Rust leaves an error in Rust. -/
theorem Tracks.latch (ht : Tracks h b s) :
    Tracks { h with rejections := h.rejections ++ [EINVAL] } (b.latch EINVAL) s where
  held := ht.held
  clean := by
    have hlatch : (b.latch EINVAL).pending ≠ 0 := by
      unfold TokenBuilder.latch
      split_ifs with h0
      · show EINVAL ≠ 0
        decide
      · exact h0
    constructor
    · intro hclean
      exact absurd hclean.1 hlatch
    · intro hnil
      exact absurd hnil (List.append_ne_nil_of_right_ne_nil _ (List.cons_ne_nil _ _))
  error_ne := ht.error_ne

/-- Any other leaves what libpeios says of it. -/
theorem Tracks.push (ht : Tracks h b s) (part : Part) :
    Tracks
      { held := (lib.step h.held part).1
        rejections := h.rejections ++ (lib.step h.held part).2.toList }
      b (Latched.push lib.step s part) where
  held := by
    show (lib.step s.inner part).1 = _
    rw [ht.held]
  clean := by
    rw [error_push_eq_none, ht.held, List.append_eq_nil_iff, ← ht.clean, Option.toList_eq_nil_iff,
      and_assoc]
  error_ne := by
    show s.error.or (lib.step s.inner part).2 ≠ some 0
    intro h0
    rcases Option.or_eq_some_iff.mp h0 with hs | ⟨-, hstep⟩
    · exact ht.error_ne hs
    · exact lib.step_ne_zero _ _ hstep

/-- **One step**: an operation succeeds, and keeps to the history. -/
theorem tracks_op (lib : TokenLib B) (ht : Tracks h b s) (op : Op sids) :
    ∃ b' s', exec lib.builder (op.run b) s = (.ok b', s') ∧ Tracks (lib.next h op) b' s' := by
  cases op with
  | reset => exact ⟨_, _, rfl, tracks_start lib⟩
  | set setter =>
    show ∃ b' s', exec lib.builder (setter.run b) s = _ ∧
      Tracks (if setter.malformed then _ else _) b' s'
    cases hm : setter.malformed with
    | true =>
      rw [Setter.run_of_malformed hm, if_pos rfl]
      exact ⟨_, _, rfl, ht.latch⟩
    | false =>
      rw [Setter.run_of_wellFormed hm, if_neg Bool.false_ne_true]
      exact ⟨_, _, rfl, ht.push setter.part⟩

/-- **All steps.** -/
theorem tracks_ops (ht : Tracks h b s) (ops : List (Op sids)) :
    ∃ b' s', exec lib.builder (ops.foldlM Op.run b) s = (.ok b', s') ∧
      Tracks (ops.foldl lib.next h) b' s' := by
  apply exec_foldlM (I := fun done b s => Tracks (done.foldl lib.next h) b s) _ ht
  intro done b s op ht
  rw [List.foldl_append]
  exact tracks_op lib ht op

/-! ### The end -/

/-- The builder reports an error exactly after a rejected setter, and is not changed by that. -/
theorem exec_error (lib : TokenLib B) (ht : Tracks h b s) :
    (h.rejections = [] ∧ exec lib.builder b.error s = (.ok (), s)) ∨
    ∃ e, h.rejections ≠ [] ∧ exec lib.builder b.error s = (.error (.errno e), s) := by
  unfold TokenBuilder.error
  by_cases hp : b.pending = 0
  · rw [if_neg (not_not.mpr hp), exec_bind_ok (exec_builderCall .error s)]
    rcases he : s.error with _ | e
    · left
      have hcall : (lib.builder .error s).1 = (0 : Errno) := by
        show s.error.getD 0 = 0
        rw [he]
        rfl
      rw [if_pos hcall]
      exact ⟨ht.clean.mp ⟨hp, he⟩, rfl⟩
    · right
      have hcall : (lib.builder .error s).1 = e := by
        show s.error.getD 0 = e
        rw [he]
        rfl
      rw [hcall, if_neg (by rintro rfl; exact ht.error_ne he)]
      refine ⟨e, fun hnil => ?_, rfl⟩
      have hnone := (ht.clean.mpr hnil).2
      rw [he] at hnone
      cases hnone
  · right
    rw [if_pos hp]
    exact ⟨b.pending, fun hnil => hp (ht.clean.mpr hnil).1, rfl⟩

/-- A sequence makes the calls of both halves. -/
theorem reaches_bind {β : Type} {p : BuilderProg α} {f : α → BuilderProg β} {a : α}
    {s' : Latched B Errno} (hp : exec lib.builder p s = (.ok a, s')) (c : BuilderCall) :
    lib.Reaches c (p >>= f) s ↔ lib.Reaches c p s ∨ lib.Reaches c (f a) s' := by
  unfold TokenLib.Reaches
  rw [events_bind_ok hp, List.map_append, List.mem_append]

theorem reaches_bind_error {β : Type} {p : BuilderProg α} {f : α → BuilderProg β} {e : Fault}
    {s' : Latched B Errno} (hp : exec lib.builder p s = (.error e, s')) (c : BuilderCall) :
    lib.Reaches c (p >>= f) s ↔ lib.Reaches c p s := by
  unfold TokenLib.Reaches
  rw [events_bind_error hp]

theorem reaches_builderCall {c c' : BuilderCall} :
    lib.Reaches c (builderCall c') s ↔ c = c' := List.mem_singleton

theorem not_reaches_pure (c : BuilderCall) (a : α) :
    ¬ lib.Reaches c (pure a : BuilderProg α) s := List.not_mem_nil

theorem not_reaches_throw (c : BuilderCall) (e : Fault) :
    ¬ lib.Reaches c (throw e : BuilderProg α) s := List.not_mem_nil

/-- The calls that serialize or mint. -/
def BuilderCall.Finishes : BuilderCall → Prop
  | .bytes => True
  | .create => True
  | _ => False

/-- Asking for the error neither serializes nor mints. -/
theorem not_reaches_error {c : BuilderCall} (hc : c.Finishes) : ¬ lib.Reaches c b.error s := by
  unfold TokenBuilder.error
  split_ifs with hp
  · exact not_reaches_throw _ _
  · rw [reaches_bind (exec_builderCall .error s), reaches_builderCall]
    rintro (rfl | hrest)
    · exact hc
    · split_ifs at hrest
      · exact not_reaches_pure _ _ hrest
      · exact not_reaches_throw _ _ hrest

/-- Neither does an operation. -/
theorem not_reaches_op {c : BuilderCall} (hc : c.Finishes) (op : Op sids) :
    ¬ lib.Reaches c (op.run b) s := by
  cases op with
  | reset =>
    show ¬ lib.Reaches c (builderCall .reset >>= fun _ => pure _) s
    rw [reaches_bind (exec_builderCall .reset s), reaches_builderCall]
    rintro (rfl | hrest)
    · exact hc
    · exact not_reaches_pure _ _ hrest
  | set setter =>
    show ¬ lib.Reaches c (setter.run b) s
    cases hm : setter.malformed with
    | true =>
      rw [Setter.run_of_malformed hm]
      exact not_reaches_pure _ _
    | false =>
      rw [Setter.run_of_wellFormed hm]
      unfold TokenBuilder.set
      rw [reaches_bind (exec_builderCall _ s), reaches_builderCall]
      rintro (rfl | hrest)
      · exact hc
      · exact not_reaches_pure _ _ hrest

theorem not_reaches_ops {c : BuilderCall} (hc : c.Finishes) (ht : Tracks h b s)
    (ops : List (Op sids)) : ¬ lib.Reaches c (ops.foldlM Op.run b) s := by
  induction ops generalizing h b s with
  | nil => exact not_reaches_pure _ _
  | cons op ops ih =>
    obtain ⟨b₁, s₁, hop, ht₁⟩ := tracks_op lib ht op
    rw [List.foldlM_cons, reaches_bind hop]
    rintro (hcall | hrest)
    · exact not_reaches_op hc op hcall
    · exact ih ht₁ hrest

/-- What follows the check is reached exactly if no setter was rejected. -/
theorem reaches_after_error (ht : Tracks h b s) {c : BuilderCall} (hc : c.Finishes)
    (f : BuilderReply c → BuilderProg α) :
    lib.Reaches c (b.error >>= fun _ => builderCall c >>= f) s ↔ h.rejections = [] := by
  rcases exec_error lib ht with ⟨hnil, hok⟩ | ⟨e, hne, herror⟩
  · rw [reaches_bind hok, reaches_bind (exec_builderCall c s), reaches_builderCall]
    exact ⟨fun _ => hnil, fun _ => .inr (.inl rfl)⟩
  · rw [reaches_bind_error herror]
    constructor
    · intro hcall
      exact absurd hcall (not_reaches_error hc)
    · intro hnil
      exact absurd hnil hne

/-- What a session does is what its end does, from where the operations lead. -/
theorem session_eq (lib : TokenLib B) (ops : List (Op sids)) (s₀ : Latched B Errno) :
    ∃ b s, Tracks (lib.history ops) b s ∧
      ∀ {α : Type} (finish : TokenBuilder → BuilderProg α),
        exec lib.builder (session ops finish) s₀ = exec lib.builder (finish b) s ∧
        ∀ c : BuilderCall, c.Finishes →
          (lib.Reaches c (session ops finish) s₀ ↔ lib.Reaches c (finish b) s) := by
  have hnew : exec lib.builder TokenBuilder.new s₀ = (.ok { pending := 0 }, lib.empty) := rfl
  obtain ⟨b, s, hops, ht⟩ := tracks_ops (tracks_start lib) ops
  refine ⟨b, s, ht, fun finish => ⟨?_, fun c hc => ?_⟩⟩
  · unfold session
    rw [exec_bind_ok hnew, exec_bind_ok hops]
  · have hcreated : ¬ lib.Reaches c TokenBuilder.new s₀ := by
      show ¬ lib.Reaches c (builderCall .new >>= fun made : Bool => _) s₀
      rw [reaches_bind (exec_builderCall .new s₀), reaches_builderCall]
      rintro (rfl | hrest)
      · exact hc
      · exact not_reaches_pure _ _ hrest
    unfold session
    rw [reaches_bind hnew, reaches_bind hops]
    constructor
    · rintro (hcall | hcall | hcall)
      · exact absurd hcall hcreated
      · exact absurd hcall (not_reaches_ops hc (tracks_start lib) ops)
      · exact hcall
    · intro hcall
      exact .inr (.inr hcall)

/-! ### The result -/

/-- Setters do not take back what was rejected. -/
theorem rejections_of_setters (ops : List (Op sids)) (setters : List (Setter sids))
    (hnil : (lib.history (ops ++ setters.map Op.set)).rejections = []) :
    (lib.history ops).rejections = [] := by
  unfold TokenLib.history at hnil ⊢
  rw [List.foldl_append] at hnil
  generalize ops.foldl lib.next lib.start = h at hnil ⊢
  induction setters generalizing h with
  | nil => exact hnil
  | cons setter setters ih =>
    have hnext := ih _ hnil
    change (if setter.malformed then _ else _ : History B).rejections = [] at hnext
    split_ifs at hnext
    · exact (List.append_eq_nil_iff.mp hnext).1
    · exact (List.append_eq_nil_iff.mp hnext).1

theorem reaches_toBytes (lib : TokenLib B) (ops : List (Op sids)) (s : Latched B Errno) :
    lib.Reaches .bytes (session ops TokenBuilder.toBytes) s ↔ (lib.history ops).rejections = [] := by
  obtain ⟨b, s', ht, hend⟩ := session_eq lib ops s
  rw [(hend TokenBuilder.toBytes).2 .bytes trivial]
  exact reaches_after_error (c := .bytes) ht trivial _

theorem reaches_create (lib : TokenLib B) (ops : List (Op sids)) (s : Latched B Errno) :
    lib.Reaches .create (session ops TokenBuilder.create) s ↔ (lib.history ops).rejections = [] := by
  obtain ⟨b, s', ht, hend⟩ := session_eq lib ops s
  rw [(hend TokenBuilder.create).2 .create trivial]
  exact reaches_after_error (c := .create) ht trivial _

/-- After a reset a session is a new one. -/
theorem exec_session_reset (lib : TokenLib B) (ops more : List (Op sids))
    (finish : TokenBuilder → BuilderProg α) (s : Latched B Errno) :
    exec lib.builder (session (ops ++ .reset :: more) finish) s
      = exec lib.builder (session more finish) s := by
  have hnew : exec lib.builder TokenBuilder.new s = (.ok { pending := 0 }, lib.empty) := rfl
  obtain ⟨b, s', hops, -⟩ := tracks_ops (tracks_start lib) ops
  have hreset : exec lib.builder (Op.run b (.reset : Op sids)) s'
      = (.ok { pending := 0 }, lib.empty) := rfl
  unfold session
  rw [exec_bind_ok hnew, exec_bind_ok hnew, List.foldlM_append, bind_assoc, exec_bind_ok hops,
    List.foldlM_cons, bind_assoc, exec_bind_ok hreset]

/-- **A token is never minted from a spec with a rejected part.**  `to_bytes` serializes and
`create` mints exactly if no setter since the last reset was rejected; setters that follow do not
undo a rejection; after a reset the builder is a new one; and a setter that Rust rejects does not
call libpeios. -/
theorem mints_unrejected (lib : TokenLib B) (ops : List (Op sids)) (s : Latched B Errno) :
    (lib.Reaches .bytes (session ops TokenBuilder.toBytes) s ↔
      (lib.history ops).rejections = []) ∧
    (lib.Reaches .create (session ops TokenBuilder.create) s ↔
      (lib.history ops).rejections = []) ∧
    (∀ setters : List (Setter sids),
      (lib.Reaches .bytes (session (ops ++ setters.map .set) TokenBuilder.toBytes) s →
        lib.Reaches .bytes (session ops TokenBuilder.toBytes) s) ∧
      (lib.Reaches .create (session (ops ++ setters.map .set) TokenBuilder.create) s →
        lib.Reaches .create (session ops TokenBuilder.create) s)) ∧
    (∀ (more : List (Op sids)) {α : Type} (finish : TokenBuilder → BuilderProg α),
      exec lib.builder (session (ops ++ .reset :: more) finish) s
        = exec lib.builder (session more finish) s) ∧
    ∀ (setter : Setter sids) (b : TokenBuilder), setter.malformed = true →
      events lib.builder (setter.run b) s = [] := by
  refine ⟨reaches_toBytes lib ops s, reaches_create lib ops s, fun setters => ⟨?_, ?_⟩,
    fun more _ finish => exec_session_reset lib ops more finish s, fun setter b hm => ?_⟩
  · rw [reaches_toBytes, reaches_toBytes]
    exact rejections_of_setters ops setters
  · rw [reaches_create, reaches_create]
    exact rejections_of_setters ops setters
  · rw [Setter.run_of_malformed hm]
    rfl

end Peios.Token
