import Mathlib.Data.List.Forall2
import Peios.Interaction.Concurrent
import Peios.Token.Session

/-!
# What `Session::list` returns

A `Sessions` is the sessions that are live, those that were live before, and what each open reader
has left to return: a reader that is opened returns the sessions of that moment (`Answers`), and
others begin and end sessions all the time.  `list_isOneMoment` says that the list is the sessions
of one moment between the call's start and its end, all of them and in the kernel's order, and that
the reader is closed on every way out.
-/

namespace Peios.Token

open Interaction Relation Security ByteString

/-- The sessions that are live, those that were live before each change so far, and the open
readers. -/
structure Sessions where
  past : List (List RawSession)
  live : List RawSession
  readers : Nat → Option (List RawSession)

namespace Sessions

/-- What was live at each moment so far, the present one last. -/
def moments (w : Sessions) : List (List RawSession) := w.past ++ [w.live]

/-- What was live at each moment from `s` on until `t`. -/
def between (s t : Sessions) : List (List RawSession) := t.moments.drop s.past.length

/-- A reader has these sessions left, or is closed. -/
def setReader (w : Sessions) (reader : Nat) (left : Option (List RawSession)) : Sessions :=
  { w with readers := fun r => if r = reader then left else w.readers r }

/-- Others begin and end sessions. -/
inductive Others : Sessions → Sessions → Prop where
  | changes (w : Sessions) (live : List RawSession) : Others w { w with past := w.moments, live }

/-- What a call may be answered, and what it leaves; `fails` are the errors the kernel may
return. -/
inductive Answers (fails : Errno → Prop) :
    (c : SessionCall) → Sessions → SessionReply c → Sessions → Prop where
  | opened {w : Sessions} {reader : Nat} : w.readers reader = none →
      Answers fails .openSessions w (.ok reader) (w.setReader reader (some w.live))
  | notOpened {w : Sessions} {e : Errno} : fails e → Answers fails .openSessions w (.error e) w
  | next {w : Sessions} {reader : Nat} {raw : RawSession} {left : List RawSession} :
      w.readers reader = some (raw :: left) →
      Answers fails (.next reader) w (.ok (some raw)) (w.setReader reader (some left))
  | done {w : Sessions} {reader : Nat} : w.readers reader = some [] →
      Answers fails (.next reader) w (.ok none) w
  | failed {w : Sessions} {reader : Nat} {e : Errno} : fails e →
      Answers fails (.next reader) w (.error e) w
  | closed {w : Sessions} {reader : Nat} : w.readers reader ≠ none →
      Answers fails (.close reader) w () (w.setReader reader none)

end Sessions

open Sessions

variable {lib : SidLib} {fails : Errno → Prop} {s t u : Sessions} {reader : Nat}

/-- What a list says of a session.  An authentication package that is not UTF-8 has lost something.
-/
structure Describes (raw : RawSession) (info : LogonSessionInfo) : Prop where
  id : info.id = raw.logonSessionId
  user : info.user.asBytes = raw.userSid
  logonType : info.logonType = raw.logonType
  authPackage : ∀ package, utf8 package = raw.authPackage → info.authPackage = package
  createdAt : info.createdAt = raw.createdAt.toNat

/-- A session is described when its SID is one and its time can be represented. -/
theorem info_spec (lib : SidLib) (raw : RawSession) :
    (lib.valid raw.userSid = false ∧ raw.info lib = .error (.errno EPROTO)) ∨
    (2 ^ 63 ≤ raw.createdAt.toNat ∧ raw.info lib = .error .panic) ∨
    ∃ info, raw.info lib = .ok info ∧ Describes raw info := by
  unfold RawSession.info
  cases hsid : SidRef.fromBytes lib raw.userSid with
  | none =>
    refine .inl ⟨?_, rfl⟩
    rw [← Bool.not_eq_true]
    intro hvalid
    unfold SidRef.fromBytes at hsid
    rw [dif_pos hvalid] at hsid
    cases hsid
  | some sid =>
    obtain ⟨user, huser, hbytes⟩ := Sid.fromRef_spec sid
    dsimp only
    rw [huser, ok_bind]
    unfold sinceEpoch
    split_ifs with htime
    · refine .inr (.inr ⟨_, rfl, ?_⟩)
      exact {
        id := rfl
        user := hbytes.trans (SidRef.fromBytes_eq_some.mp hsid)
        logonType := rfl
        authPackage := by
          rintro package hpackage
          show fromUtf8Lossy raw.authPackage = package
          rw [← hpackage, fromUtf8Lossy_utf8]
        createdAt := rfl }
    · exact .inr (.inl ⟨not_lt.mp htime, rfl⟩)

/-- What a list of the sessions of a moment is, which may fail on the way to the end. -/
inductive Lists (lib : SidLib) (fails : Errno → Prop) :
    List RawSession → Outcome (List LogonSessionInfo) → Prop where
  /-- Every session is described, in order. -/
  | all {moment : List RawSession} {sessions : List LogonSessionInfo} :
      List.Forall₂ Describes moment sessions → Lists lib fails moment (.ok sessions)
  | malformed {moment : List RawSession} {raw : RawSession} : raw ∈ moment →
      lib.valid raw.userSid = false → Lists lib fails moment (.error (.errno EPROTO))
  /-- The time of a session does not fit a `SystemTime`. -/
  | overflows {moment : List RawSession} {raw : RawSession} : raw ∈ moment →
      2 ^ 63 ≤ raw.createdAt.toNat → Lists lib fails moment (.error .panic)
  | failed {moment : List RawSession} {e : Errno} : fails e →
      Lists lib fails moment (.error (.errno e))

/-! ### The loop -/

/-- Nothing that was live at some moment is forgotten. -/
theorem moments_isPrefix {α : Type} {p : SessionProg α} {a : α}
    (hrun : Concurrent Others (Answers fails) s p a u) : s.moments <+: u.moments := by
  induction hrun with
  | ret => exact List.prefix_refl _
  | env hothers _ ih =>
    cases hothers with
    | changes live => exact (List.prefix_append _ [live]).trans ih
  | call hanswer _ ih => cases hanswer <;> exact ih

/-- What was live when a run began was so at a moment since any earlier state. -/
theorem live_mem_between {α : Type} {p : SessionProg α} {a : α} (hst : ReflTransGen Others s t)
    (hrun : Concurrent Others (Answers fails) t p a u) : t.live ∈ s.between u := by
  have hpast : s.past.length ≤ t.past.length := by
    have hstable : Stable Others fun w => s.past.length ≤ w.past.length := by
      rintro w _ ⟨live⟩ hw
      show s.past.length ≤ (w.past ++ [w.live]).length
      rw [List.length_append]
      exact hw.trans (Nat.le_add_right _ _)
    exact hstable.of_reflTransGen hst le_rfl
  have hlive : t.live ∈ t.moments.drop s.past.length := by
    unfold moments
    rw [List.drop_append_of_le_length hpast]
    exact List.mem_append_right _ (List.mem_singleton.mpr rfl)
  exact ((moments_isPrefix hrun).drop _).subset hlive

/-- A reader was opened after `s`, and no other was touched. -/
structure Opened (s : Sessions) (reader : Nat) (t : Sessions) : Prop where
  fresh : s.readers reader = none
  others : ∀ r, r ≠ reader → t.readers r = s.readers r
  still : t.readers reader ≠ none

theorem Opened.stable (s : Sessions) (reader : Nat) : Stable Others (Opened s reader) := by
  rintro w _ ⟨live⟩ h
  exact { h with }

/-- What a reader that has these sessions left may return, and what it has left then. -/
def Next (fails : Errno → Prop) (s : Sessions) (reader : Nat) (left : List RawSession)
    (r : Except Errno (Option RawSession)) (t : Sessions) : Prop :=
  Opened s reader t ∧ match r with
    | .ok (some raw) => ∃ left', left = raw :: left' ∧ t.readers reader = some left'
    | .ok none => left = []
    | .error e => fails e

theorem next_of_answers {left : List RawSession} (ht : Opened s reader t)
    (hleft : t.readers reader = some left) {r : Except Errno (Option RawSession)}
    (hanswer : Answers fails (.next reader) t r u) : Next fails s reader left r u := by
  cases hanswer with
  | @next _ _ raw left' h =>
    refine ⟨⟨ht.fresh, fun r hr => ?_, ?_⟩, left', ?_, if_pos rfl⟩
    · exact (if_neg hr).trans (ht.others r hr)
    · exact fun hnone => Option.some_ne_none left' ((if_pos rfl).symm.trans hnone)
    · exact Option.some.inj (hleft.symm.trans h)
  | done h => exact ⟨ht, Option.some.inj (hleft.symm.trans h)⟩
  | failed he => exact ⟨ht, he⟩

/-- The loop lists what its reader has left, after what it has listed, and leaves it open; its
rounds are enough when there are more of them than sessions. -/
theorem ensures_loop (rounds : Nat) {done left : List RawSession}
    {sessions : List LogonSessionInfo} (hdone : List.Forall₂ Describes done sessions) :
    Ensures Others (Answers fails) (fun t => Opened s reader t ∧ t.readers reader = some left)
      (Session.list.loop lib reader rounds sessions) fun result t =>
        Opened s reader t ∧ (Lists lib fails (done ++ left) result ∨
          rounds ≤ left.length ∧ result = .error .fuel) := by
  induction rounds generalizing done left sessions with
  | zero =>
    refine .ret ?_ fun t ht => ⟨ht.1, .inr ⟨Nat.zero_le _, rfl⟩⟩
    exact (Opened.stable s reader).and fun _ _ _ h => h
  | succ rounds ih =>
    have hpost : ∀ result : Outcome (List LogonSessionInfo), Stable Others fun t =>
        Opened s reader t ∧ (Lists lib fails (done ++ left) result ∨
          rounds + 1 ≤ left.length ∧ result = .error .fuel) :=
      fun result => (Opened.stable s reader).and fun _ _ _ h => h
    refine .call (M := Next fails s reader left) ?_ (fun t r t' ht hanswer =>
      next_of_answers ht.1 ht.2 hanswer) fun r => ?_
    · refine (Opened.stable s reader).and ?_
      rintro w _ ⟨live⟩ h
      exact h
    · match r with
      | .error e => exact .ret (hpost _) fun t ht => ⟨ht.1, .inl (.failed ht.2)⟩
      | .ok none =>
        refine .ret (hpost _) fun t ht => ⟨ht.1, .inl ?_⟩
        rw [ht.2, List.append_nil]
        exact .all hdone
      | .ok (some raw) =>
        simp only [Prog.bind]
        have hmem : ∀ t, Next fails s reader left (.ok (some raw)) t → raw ∈ done ++ left := by
          rintro t ⟨-, left', rfl, -⟩
          simp
        rcases info_spec lib raw with ⟨hsid, hinfo⟩ | ⟨htime, hinfo⟩ | ⟨info, hinfo, hdescribes⟩
        · rw [hinfo]
          exact .ret (hpost _) fun t ht => ⟨ht.1, .inl (.malformed (hmem t ht) hsid)⟩
        · rw [hinfo]
          exact .ret (hpost _) fun t ht => ⟨ht.1, .inl (.overflows (hmem t ht) htime)⟩
        · rw [hinfo]
          intro t result u ht hrun
          obtain ⟨hopened, left', rfl, hleft⟩ := ht
          have hdone' : List.Forall₂ Describes (done ++ [raw]) (sessions ++ [info]) :=
            List.rel_append hdone (.cons hdescribes .nil)
          obtain ⟨hu, hlists⟩ := ih hdone' t result u ⟨hopened, hleft⟩ hrun
          rw [List.append_assoc, List.singleton_append] at hlists
          exact ⟨hu, hlists.imp_right fun h => ⟨Nat.succ_le_succ h.1, h.2⟩⟩

/-! ### The list -/

theorem readers_of_others (h : ReflTransGen Others s t) : t.readers = s.readers := by
  have hstable : Stable Others fun w => w.readers = s.readers := by
    rintro w _ ⟨live⟩ hw
    exact hw
  exact hstable.of_reflTransGen h rfl

/-- **A list is the sessions of one moment.**  Whatever sessions others begin and end while
`Session::list` runs, it describes every session that was live at one moment between its start and
its end, in order, unless a call fails or a session of that moment cannot be described; any number
of rounds that is greater than the number of sessions gives this.  The readers that are open at the
end are those that were open at the start. -/
theorem list_isOneMoment {rounds : Nat} {result : Outcome (List LogonSessionInfo)}
    (hrun : Concurrent Others (Answers fails) s (Session.list lib rounds) result u) :
    u.readers = s.readers ∧ ∃ moment ∈ s.between u,
      Lists lib fails moment result ∨ rounds ≤ moment.length ∧ result = .error .fuel := by
  obtain ⟨w, r, w', hsw, hanswer, hrest⟩ := hrun.call_inv
  have hw := readers_of_others hsw
  cases hanswer with
  | @notOpened _ e he =>
    have hmoment := live_mem_between hsw hrest
    obtain ⟨rfl, hwu⟩ := hrest.ret_inv
    exact ⟨(readers_of_others hwu).trans hw, w.live, hmoment, .inl (.failed he)⟩
  | @opened _ reader hfree =>
    have hlist : Concurrent Others (Answers fails) (w.setReader reader (some w.live)) (do
        let sessions ← Session.list.loop lib reader rounds []
        let _ ← onSessions (.close reader)
        return sessions) result u := hrest
    -- the sessions that were live when the reader was opened
    have hwhole : Concurrent Others (Answers fails) w (Session.list lib rounds) result u :=
      .call (.opened hfree) hrest
    have hmoment := live_mem_between hsw hwhole
    obtain ⟨sessions, t, hloop, hclose⟩ := hlist.bind_inv
    have hopened : Opened s reader (w.setReader reader (some w.live)) := by
      refine ⟨hw ▸ hfree, fun r hr => ?_, ?_⟩
      · exact (if_neg hr).trans (congrFun hw r)
      · exact fun hnone => Option.some_ne_none w.live ((if_pos rfl).symm.trans hnone)
    obtain ⟨ht, hlists⟩ := ensures_loop rounds List.Forall₂.nil _ sessions t
      ⟨hopened, if_pos rfl⟩ hloop
    -- the reader is closed, whatever the loop has returned
    obtain ⟨v, r, v', htv, hanswer, hend⟩ := hclose.call_inv
    obtain ⟨rfl, hvu⟩ := hend.ret_inv
    refine ⟨?_, w.live, hmoment, hlists⟩
    cases hanswer with
    | closed _ =>
      rw [readers_of_others hvu]
      funext r
      show (if r = reader then none else v.readers r) = s.readers r
      rw [readers_of_others htv]
      split_ifs with hr
      · rw [hr, ht.fresh]
      · exact ht.others r hr

/-- A library for which a SID is a byte. -/
def byteSids : SidLib where
  maxBytes := 1
  valid b := b.length = 1
  length_le := by simp +contextual
  maxBytes_lt := by decide

/-- The session that the kernel makes at boot, alone. -/
def booted : Sessions where
  past := []
  live := [{
    logonSessionId := 999, userSid := [18], logonType := 5, authPackage := utf8 "Negotiate",
    createdAt := 0 }]
  readers _ := none

/-- What is listed of it. -/
def bootedInfo : LogonSessionInfo :=
  { id := 999, user := { buf := [18], len := 1 }, logonType := 5, authPackage := "Negotiate",
    createdAt := 0 }

/-- A session that ends while it is listed was one of the moment that the reader was opened at. -/
theorem list_isOneMoment_booted :
    ∃ u : Sessions, booted.between u = [booted.live, []] ∧ u.readers = booted.readers ∧
      ∃ moment ∈ booted.between u, Lists byteSids (fun _ => False) moment (.ok [bootedInfo]) ∨
        2 ≤ moment.length ∧ Except.ok [bootedInfo] = .error Fault.fuel := by
  have hopen : Answers (fun _ => False) .openSessions booted (.ok 3)
      (booted.setReader 3 (some booted.live)) := .opened rfl
  have hrun : ∃ u, booted.between u = [booted.live, []] ∧
      Concurrent Others (Answers fun _ => False) booted (Session.list byteSids 2)
        (.ok [bootedInfo]) u :=
    ⟨_, rfl, .call hopen (.env (.changes _ []) (.call (.next rfl)
      (.call (.done rfl) (.call (.closed (Option.some_ne_none [])) (.ret _ _)))))⟩
  obtain ⟨u, hbetween, hu⟩ := hrun
  exact ⟨u, hbetween, list_isOneMoment hu⟩

end Peios.Token
