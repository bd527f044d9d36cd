import Peios.Interaction.Concurrent
import Peios.Registry.Equiv.Watch
import Peios.Registry.WatchRead

/-!
# What reading watch records returns

A `Watched` key is a key with the records that have been published on it since watches were armed,
how many of them have been read, and what reads have been refused with.  `Answers` is what the
kernel may do: a `read` takes as many whole records as it likes of those that are left, fails with
`EAGAIN` when there are none, or is refused with something else and takes nothing.  Others publish
records between any two calls.

`readWatchEvents_inOrder` says that calling `Key::read_watch_events` again and again returns the
events of the records in the order they were published, each once and none left out, whatever the
buffers and however the others come in between; that it has returned everything that had been
published before, once it returns no event; and which errors it returns (`Fails`).
-/

namespace Peios.Registry

open Interaction

/-- A key that watches are armed on. -/
structure Watched where
  published : List WatchRecord
  taken : Nat
  /-- What reads have been refused with. -/
  refused : List Errno

namespace Watched

/-- The records that are left. -/
def pending (w : Watched) : List WatchRecord := w.published.drop w.taken

/-- Others publish a record. -/
inductive Publishes : Watched → Watched → Prop where
  | publish (w : Watched) (r : WatchRecord) :
      Publishes w { w with published := w.published ++ [r] }

/-- What a call may be answered, and what it leaves. -/
inductive Answers : (c : WatchCall) → Watched → WatchReply c → Watched → Prop where
  /-- Records are written to the front of the buffer. -/
  | read (w : Watched) (key : Fd) (buffer : Bytes) (n : Nat) :
      0 < n → n ≤ w.pending.length →
      ((w.pending.take n).flatMap WatchRecord.encode).length ≤ buffer.length →
      Answers (.read key buffer) w
        (.ok (((w.pending.take n).flatMap WatchRecord.encode).length,
          (w.pending.take n).flatMap WatchRecord.encode
            ++ buffer.drop ((w.pending.take n).flatMap WatchRecord.encode).length))
        { w with taken := w.taken + n }
  /-- There is nothing to read yet. -/
  | wouldBlock (w : Watched) (key : Fd) (buffer : Bytes) :
      w.pending = [] → Answers (.read key buffer) w (.error EAGAIN) w
  | notRead (w : Watched) (key : Fd) (buffer : Bytes) (e : Errno) :
      e ≠ EAGAIN →
      Answers (.read key buffer) w (.error e) { w with refused := w.refused ++ [e] }

end Watched

/-- The events that a list of reads has returned. -/
def returnedEvents (outcomes : List (Outcome (List WatchEvent))) : List WatchEvent :=
  outcomes.flatMap fun outcome => outcome.toOption.getD []

/-- The errors among what reads into some buffers return: `EINVAL` of an empty buffer, and what the
kernel has refused the others with. -/
inductive Fails : List Bytes → List (Outcome (List WatchEvent)) → List Errno → Prop where
  | nil : Fails [] [] []
  | empty {buffers : List Bytes} {outcomes : List (Outcome (List WatchEvent))} {es : List Errno} :
      Fails buffers outcomes es → Fails (buffers ++ [[]]) (outcomes ++ [.error (.errno EINVAL)]) es
  | events {buffers : List Bytes} {outcomes : List (Outcome (List WatchEvent))} {es : List Errno}
      {buffer : Bytes} (evs : List WatchEvent) : buffer ≠ [] → Fails buffers outcomes es →
      Fails (buffers ++ [buffer]) (outcomes ++ [.ok evs]) es
  | refused {buffers : List Bytes} {outcomes : List (Outcome (List WatchEvent))} {es : List Errno}
      {buffer : Bytes} (e : Errno) : buffer ≠ [] → Fails buffers outcomes es →
      Fails (buffers ++ [buffer]) (outcomes ++ [.error (.errno e)]) (es ++ [e])

/-- What reads from `s` on have returned when they have come to `t`. -/
structure Delivered (s : Watched) (buffers : List Bytes)
    (outcomes : List (Outcome (List WatchEvent))) (t : Watched) : Prop where
  /-- The events are those of the records that were taken, in order. -/
  inOrder : List.Forall₂ WatchRecord.Gives ((t.published.take t.taken).drop s.taken)
    (returnedEvents outcomes)
  after : s.taken ≤ t.taken
  within : t.taken ≤ t.published.length
  kept : s.published <+: t.published
  /-- A read that returns no event has caught up with what was there at the start. -/
  caughtUp : .ok [] ∈ outcomes → s.published.length ≤ t.taken
  /-- Every error is that of an empty buffer, or the next that the kernel has refused a read with.
  -/
  fails : ∃ es, t.refused = s.refused ++ es ∧ Fails buffers outcomes es

variable {s t u : Watched} {buffers : List Bytes} {outcomes : List (Outcome (List WatchEvent))}
  {buffer : Bytes}

theorem returnedEvents_append_error (e : Fault) :
    returnedEvents (outcomes ++ [.error e]) = returnedEvents outcomes := by
  simp [returnedEvents, Except.toOption]

theorem returnedEvents_append_ok (evs : List WatchEvent) :
    returnedEvents (outcomes ++ [.ok evs]) = returnedEvents outcomes ++ evs := by
  simp [returnedEvents, Except.toOption]

/-- Before the first read. -/
theorem Delivered.nil (hs : s.taken ≤ s.published.length) : Delivered s [] [] s where
  inOrder := by
    rw [List.drop_eq_nil_of_le (List.length_take_le ..)]
    exact .nil
  after := le_rfl
  within := hs
  kept := List.prefix_refl _
  caughtUp := by simp
  fails := ⟨[], by simp, .nil⟩

/-- What others publish takes nothing back. -/
theorem Delivered.stable (s : Watched) (buffers : List Bytes)
    (outcomes : List (Outcome (List WatchEvent))) :
    Stable Watched.Publishes (Delivered s buffers outcomes) := by
  rintro t u ⟨_, r⟩ h
  exact {
    inOrder := by
      rw [List.take_append_of_le_length h.within]
      exact h.inOrder
    after := h.after
    within := by
      rw [List.length_append]
      exact h.within.trans (Nat.le_add_right _ _)
    kept := h.kept.trans (List.prefix_append ..)
    caughtUp := h.caughtUp
    fails := h.fails }

/-! ### One read -/

/-- What a read returns of what the kernel answers. -/
def readOutcome : Except Errno (Nat × Bytes) → Outcome (List WatchEvent)
  | .error e => if e = EAGAIN then .ok [] else .error (.errno e)
  | .ok (n, buffer) => sliceTo buffer n >>= parseWatchEvents

theorem readWatchEvents_eq {key : Fd} {buffer : Bytes} (hne : buffer ≠ []) :
    Key.readWatchEvents key buffer = .call (.read key buffer) fun r => .ret (readOutcome r) := by
  unfold Key.readWatchEvents
  rw [if_neg (by simpa using hne)]
  refine congrArg (Prog.call (WatchCall.read key buffer)) (funext fun r => ?_)
  cases r with
  | error e => rfl
  | ok r => rfl

/-- Records at the front of a buffer are read as their events. -/
theorem readOutcome_records (rs : List WatchRecord) (rest : Bytes) :
    readOutcome (.ok ((rs.flatMap WatchRecord.encode).length, rs.flatMap WatchRecord.encode ++ rest))
      = .ok (rs.map WatchRecord.event) := by
  show sliceTo (rs.flatMap WatchRecord.encode ++ rest) _ >>= parseWatchEvents = _
  rw [sliceTo_of_le (by rw [List.length_append]; exact Nat.le_add_right _ _), ok_bind,
    List.take_left' rfl]
  exact parseWatchEvents_loop_flatMap rs _ (Nat.lt_succ_self _) []

/-- A read that returns no event: it has found nothing to read. -/
theorem Delivered.append_nil (h : Delivered s buffers outcomes t) (hne : buffer ≠ [])
    (hnone : t.pending = []) : Delivered s (buffers ++ [buffer]) (outcomes ++ [.ok []]) t where
  inOrder := by
    rw [returnedEvents_append_ok, List.append_nil]
    exact h.inOrder
  after := h.after
  within := h.within
  kept := h.kept
  caughtUp := by
    intro _
    have hlen : t.published.length ≤ t.taken := List.drop_eq_nil_iff.mp hnone
    exact h.kept.length_le.trans hlen
  fails := h.fails.imp fun _ hes => ⟨hes.1, .events [] hne hes.2⟩

/-- A read that fails returns no event, and takes nothing. -/
theorem Delivered.append_error (h : Delivered s buffers outcomes t) {e : Fault} {es : List Errno}
    (hes : ∃ es', t.refused ++ es = s.refused ++ es' ∧
      Fails (buffers ++ [buffer]) (outcomes ++ [.error e]) es') :
    Delivered s (buffers ++ [buffer]) (outcomes ++ [.error e])
      { t with refused := t.refused ++ es } where
  inOrder := by
    rw [returnedEvents_append_error]
    exact h.inOrder
  after := h.after
  within := h.within
  kept := h.kept
  caughtUp := by
    intro hmem
    rcases List.mem_append.mp hmem with hmem | hmem
    · exact h.caughtUp hmem
    · cases List.mem_singleton.mp hmem
  fails := hes

/-- A read into an empty buffer. -/
theorem Delivered.append_empty (h : Delivered s buffers outcomes t) :
    Delivered s (buffers ++ [[]]) (outcomes ++ [.error (.errno EINVAL)]) t := by
  obtain ⟨es, hes, hfails⟩ := h.fails
  have hnone : t = { t with refused := t.refused ++ [] } := by rw [List.append_nil]
  rw [hnone]
  refine h.append_error ⟨es, ?_, .empty hfails⟩
  rw [List.append_nil, hes]

/-- A read that the kernel refuses. -/
theorem Delivered.append_refused (h : Delivered s buffers outcomes t) (hne : buffer ≠ [])
    (e : Errno) : Delivered s (buffers ++ [buffer]) (outcomes ++ [.error (.errno e)])
      { t with refused := t.refused ++ [e] } := by
  obtain ⟨es, hes, hfails⟩ := h.fails
  refine h.append_error ⟨es ++ [e], ?_, .refused e hne hfails⟩
  rw [hes, List.append_assoc]

/-- A read that takes records returns their events. -/
theorem Delivered.append_records (h : Delivered s buffers outcomes t) (hne : buffer ≠ []) {n : Nat}
    (hpos : 0 < n) (hn : n ≤ t.pending.length) :
    Delivered s (buffers ++ [buffer]) (outcomes ++ [.ok ((t.pending.take n).map WatchRecord.event)])
      { t with taken := t.taken + n } := by
  have hlen : t.pending.length = t.published.length - t.taken := List.length_drop ..
  constructor
  · have hsplit : t.published.take (t.taken + n)
        = t.published.take t.taken ++ t.pending.take n := List.take_add ..
    have hfront : s.taken ≤ (t.published.take t.taken).length := by
      rw [List.length_take_of_le h.within]
      exact h.after
    show List.Forall₂ _ ((t.published.take (t.taken + n)).drop s.taken) _
    rw [hsplit, List.drop_append_of_le_length hfront, returnedEvents_append_ok]
    exact List.rel_append h.inOrder (WatchRecord.forall₂_gives_iff.mpr rfl)
  · exact h.after.trans (Nat.le_add_right _ _)
  · show t.taken + n ≤ t.published.length
    omega
  · exact h.kept
  · intro hmem
    rcases List.mem_append.mp hmem with hmem | hmem
    · exact (h.caughtUp hmem).trans (Nat.le_add_right _ _)
    · have hnil := Except.ok.inj (List.mem_singleton.mp hmem)
      have hzero : min n t.pending.length = 0 := by
        rw [← List.length_take, ← List.length_map (f := WatchRecord.event), ← hnil]
        rfl
      omega
  · exact h.fails.imp fun _ hes => ⟨hes.1, .events _ hne hes.2⟩

/-- One more read. -/
theorem ensures_readWatchEvents (key : Fd) (buffer : Bytes) :
    Ensures Watched.Publishes Watched.Answers (Delivered s buffers outcomes)
      (Key.readWatchEvents key buffer)
      fun outcome => Delivered s (buffers ++ [buffer]) (outcomes ++ [outcome]) := by
  by_cases hne : buffer = []
  · subst hne
    exact .ret (Delivered.stable _ _ _) fun t ht => ht.append_empty
  · rw [readWatchEvents_eq hne]
    refine .call (M := fun r => Delivered s (buffers ++ [buffer]) (outcomes ++ [readOutcome r]))
      (Delivered.stable _ _ _) ?_ fun r => .ret (Delivered.stable _ _ _) fun _ ht => ht
    rintro t r t' ht hanswer
    cases hanswer with
    | read _ _ _ n hpos hn _ =>
      rw [readOutcome_records]
      exact ht.append_records hne hpos hn
    | wouldBlock _ _ _ hnone => exact ht.append_nil hne hnone
    | notRead _ _ _ e he =>
      have hout : readOutcome (.error e) = .error (.errno e) := if_neg he
      rw [hout]
      exact ht.append_refused hne e

/-- **Reading a watched key again and again returns what is published, in order.**  Whatever the
buffers, and whatever is published between any two calls, the events returned are those of the next
records, each once and none left out; once a read returns no event, everything that had been
published before the first read has been returned; and a read that fails has an empty buffer, or
returns what the kernel has refused it with. -/
theorem readWatchEvents_inOrder {key : Fd} (hs : s.taken ≤ s.published.length)
    (hrun : Concurrent Watched.Publishes Watched.Answers s
      (buffers.mapM (Key.readWatchEvents key)) outcomes u) : Delivered s buffers outcomes u :=
  Ensures.mapM (I := Delivered s) (Delivered.stable s)
    (fun _ _ => ensures_readWatchEvents key) buffers s outcomes u (Delivered.nil hs) hrun

/-- A record of a value that was set. -/
def setRecord : WatchRecord where
  type := 1
  name := [0x61]
  extension := none
  name_wf := by unfold IsComponent; decide
  extension_wf := by simp [IsExtension]
  length_lt := by decide

/-- A key that one record has been published on. -/
def oncePublished : Watched := { published := [setRecord], taken := 0, refused := [] }

/-- A second record is published while the first is read, and read next; a read in between is
refused, and the last one finds nothing. -/
theorem readWatchEvents_inOrder_oncePublished :
    oncePublished.taken ≤ oncePublished.published.length ∧
    Delivered oncePublished (List.replicate 4 (List.replicate 16 0))
      [.ok [setRecord.event], .error (.errno EBADF), .ok [setRecord.event], .ok []]
      { published := [setRecord, setRecord], taken := 2, refused := [EBADF] } := by
  have hrun : Concurrent Watched.Publishes Watched.Answers oncePublished
      ((List.replicate 4 (List.replicate 16 0)).mapM (Key.readWatchEvents 3))
      [.ok [setRecord.event], .error (.errno EBADF), .ok [setRecord.event], .ok []]
      { published := [setRecord, setRecord], taken := 2, refused := [EBADF] } := by
    refine .call (.read _ _ _ 1 (by decide) (by decide) (by decide)) ?_
    refine .env (.publish _ setRecord) ?_
    refine .call (.notRead _ _ _ EBADF (by decide)) ?_
    refine .call (.read _ _ _ 1 (by decide) (by decide) (by decide)) ?_
    refine .call (.wouldBlock _ _ _ rfl) ?_
    exact .ret _ _
  exact ⟨by decide, readWatchEvents_inOrder (by decide) hrun⟩

end Peios.Registry
