import Peios.Error
import Peios.Event.Emit

/-!
# What a failed batch says

libpeios emits the entries of a batch in order, and when one fails says how many it emitted before
that one.  `determines_iff` says when the value that `emit_batch` returns tells as much: only when
there was nothing to tell, because nothing was passed to libpeios, or not more than one entry.
-/

namespace Peios.Event

open Interaction Prog ByteString

/-! ### What libpeios does -/

/-- What comes of a batch of `n` entries. -/
inductive BatchOutcome (n : Nat) where
  /-- Every entry is emitted. -/
  | complete
  /-- Some are, and then one fails; an empty batch can fail too. -/
  | stopped (emitted : Nat) (errno : Errno) (h : emitted = 0 ∨ emitted < n)

namespace BatchOutcome

variable {n : Nat}

/-- How many of the leading entries are emitted. -/
def emitted : BatchOutcome n → Nat
  | complete => n
  | stopped k _ _ => k

/-- What the call returns. -/
def result : BatchOutcome n → Except Errno Unit
  | complete => .ok ()
  | stopped _ e _ => .error e

theorem emitted_le (o : BatchOutcome n) : o.emitted ≤ n := by
  cases o with
  | complete => exact le_rfl
  | stopped k e h =>
    show k ≤ n
    omega

end BatchOutcome

/-- What comes of every batch. -/
abbrev Outcomes := (entries : List EventEntry) → BatchOutcome entries.length

/-- libpeios, over the entries that have been emitted. -/
def emitter (o : Outcomes) : Handler EmitCall EmitReply (List EventEntry)
  | .emit entry, log => ((o [entry]).result, log ++ [entry].take (o [entry]).emitted)
  | .emitBatch entries, log =>
    ((.ofNat (o entries).emitted, (o entries).result), log ++ entries.take (o entries).emitted)

/-! ### What is passed on -/

/-- The lengths of an entry fit the widths they are passed with. -/
def EmitEntry.Fits (entry : EmitEntry) : Prop :=
  (utf8 entry.eventType).length < 2 ^ 16 ∧ entry.payload.length < 2 ^ 32

/-- So do those of all entries, and their number. -/
def Fits (entries : List EmitEntry) : Prop :=
  entries.length < 2 ^ 32 ∧ ∀ entry ∈ entries, entry.Fits

/-- An entry, with nothing cut off. -/
def EmitEntry.told (entry : EmitEntry) : EventEntry :=
  { eventType := utf8 entry.eventType, payload := entry.payload }

theorem tryFrom_of_lt {w n : Nat} (h : n < 2 ^ w) : tryFrom w n = .ok n := if_pos h

theorem tryFrom_of_le {w n : Nat} (h : 2 ^ w ≤ n) : tryFrom w n = .error (.errno EINVAL) :=
  if_neg (by omega)

theorem raw_of_fits {entry : EmitEntry} (h : entry.Fits) : entry.raw = .ok entry.told := by
  unfold EmitEntry.raw eventLengths EmitEntry.told
  rw [tryFrom_of_lt h.1, tryFrom_of_lt h.2]
  simp [pure, Except.pure]

theorem raw_of_not_fits {entry : EmitEntry} (h : ¬ entry.Fits) :
    entry.raw = .error (.errno EINVAL) := by
  unfold EmitEntry.raw eventLengths
  rcases lt_or_ge (utf8 entry.eventType).length (2 ^ 16) with htype | htype
  · have hpayload : 2 ^ 32 ≤ entry.payload.length := by
      by_contra hlt
      exact h ⟨htype, by omega⟩
    rw [tryFrom_of_lt htype, tryFrom_of_le hpayload]
    rfl
  · rw [tryFrom_of_le htype]
    rfl

theorem mapM_raw_of_fits {entries : List EmitEntry} (h : ∀ entry ∈ entries, entry.Fits) :
    entries.mapM EmitEntry.raw = .ok (entries.map EmitEntry.told) := by
  rw [mapM_eq_ok, List.map_map]
  apply List.map_congr_left
  intro entry hentry
  exact raw_of_fits (h entry hentry)

theorem mapM_raw_of_not_fits {entries : List EmitEntry} (h : ∃ entry ∈ entries, ¬ entry.Fits) :
    entries.mapM EmitEntry.raw = .error (.errno EINVAL) := by
  induction entries with
  | nil => simp at h
  | cons entry entries ih =>
    rw [List.mapM_cons]
    by_cases hentry : entry.Fits
    · have hrest : ∃ entry ∈ entries, ¬ entry.Fits := by
        obtain ⟨e, he, hnot⟩ := h
        rcases List.mem_cons.mp he with rfl | he
        · exact absurd hentry hnot
        · exact ⟨e, he, hnot⟩
      rw [raw_of_fits hentry, ih hrest]
      rfl
    · rw [raw_of_not_fits hentry]
      rfl

/-! ### Runs -/

variable {o : Outcomes} {entries : List EmitEntry}

theorem exec_emitCall (c : EmitCall) (log : List EventEntry) :
    exec (emitter o) (emitCall c) log = (.ok (emitter o c log).1, (emitter o c log).2) := rfl

/-- What does not fit is refused before libpeios is called. -/
theorem exec_emitBatch_of_not_fits (h : ¬ Fits entries) (log : List EventEntry) :
    exec (emitter o) (emitBatch entries) log = (.error (.errno EINVAL), log) := by
  unfold emitBatch
  rcases lt_or_ge entries.length (2 ^ 32) with hcount | hcount
  · have hentry : ∃ entry ∈ entries, ¬ entry.Fits := by
      by_contra hnone
      exact h ⟨hcount, by simpa using hnone⟩
    rw [tryFrom_of_lt hcount, mapM_raw_of_not_fits hentry]
    rfl
  · rw [tryFrom_of_le hcount]
    rfl

/-- What `emit_batch` makes of an outcome. -/
def BatchOutcome.returned {n : Nat} : BatchOutcome n → Outcome Nat
  | complete => .ok n
  | stopped _ e _ => .error (.errno e)

/-- The entries are passed on as they are, and the error alone is returned. -/
theorem exec_emitBatch (h : Fits entries) (log : List EventEntry) :
    exec (emitter o) (emitBatch entries) log
      = ((o (entries.map EmitEntry.told)).returned,
        log ++ (entries.map EmitEntry.told).take (o (entries.map EmitEntry.told)).emitted) := by
  have hcount : (entries.map EmitEntry.told).take entries.length = entries.map EmitEntry.told := by
    apply List.take_of_length_le
    rw [List.length_map]
  have htold : (entries.map EmitEntry.told).length < 2 ^ 32 := by
    rw [List.length_map]
    exact h.1
  have hreply : ∀ told, emitter o (.emitBatch told) log = ((.ofNat (o told).emitted,
      (o told).result), log ++ told.take (o told).emitted) := fun _ => rfl
  unfold emitBatch
  rw [tryFrom_of_lt h.1, mapM_raw_of_fits h.2]
  show exec (emitter o) (emitCall (.emitBatch ((entries.map EmitEntry.told).take entries.length))
    >>= fun reply => _) log = _
  rw [hcount, exec_bind_ok (exec_emitCall _ _), hreply]
  generalize entries.map EmitEntry.told = told at htold
  rcases o told with _ | ⟨k, e, hk⟩
  · -- the count of a `u32` is the number of the entries
    have hn : (UInt32.ofNat told.length).toNat = told.length := UInt32.toNat_ofNat_of_lt' htold
    show (Except.ok (UInt32.ofNat told.length).toNat, _) = (Except.ok told.length, _)
    rw [hn]
  · rfl

/-- Nothing is emitted but the leading entries that were. -/
theorem length_log (h : Fits entries) :
    (exec (emitter o) (emitBatch entries) []).2.length
      = (o (entries.map EmitEntry.told)).emitted := by
  have hle := (o (entries.map EmitEntry.told)).emitted_le
  rw [exec_emitBatch h, List.nil_append, List.length_take]
  exact min_eq_left hle

/-! ### The result -/

/-- The value that `emit_batch` returns tells how many of the entries were emitted. -/
def Determines (entries : List EmitEntry) : Prop :=
  ∃ count : Outcome Nat → Nat, ∀ o : Outcomes,
    (exec (emitter o) (emitBatch entries) []).2.length
      = count (exec (emitter o) (emitBatch entries) []).1

/-- **A failed batch says how far it got** exactly when it does not fit, and is not passed to
libpeios, or has at most one entry. -/
theorem determines_iff (entries : List EmitEntry) :
    Determines entries ↔ ¬ Fits entries ∨ entries.length ≤ 1 := by
  by_cases hfits : Fits entries
  · have hlen : (entries.map EmitEntry.told).length = entries.length := List.length_map _
    rw [or_iff_right (not_not.mpr hfits)]
    constructor
    · rintro ⟨count, hcount⟩
      by_contra hmany
      -- stopped at the first entry or at the second, with the same error
      have hstops : ∀ k < 2, k = count (.error (.errno EINVAL)) := by
        intro k hk
        have hat := hcount fun told =>
          if h : k < told.length then .stopped k EINVAL (.inr h) else .complete
        have hbelow : k < (entries.map EmitEntry.told).length := by omega
        rw [length_log hfits, exec_emitBatch hfits, dif_pos hbelow] at hat
        exact hat
      have h0 := hstops 0 (by omega)
      have h1 := hstops 1 (by omega)
      omega
    · intro hfew
      refine ⟨fun r => match r with | .ok n => n | .error _ => 0, fun o => ?_⟩
      rw [length_log hfits, exec_emitBatch hfits]
      rcases o (entries.map EmitEntry.told) with _ | ⟨k, e, hk⟩
      · rfl
      · show k = 0
        omega
  · refine iff_of_true ⟨fun _ => 0, fun o => ?_⟩ (.inl hfits)
    rw [exec_emitBatch_of_not_fits hfits]
    rfl

/-- Two entries, with the payload `nil`. -/
def twoEntries : List EmitEntry :=
  [{ eventType := "my.app.login", payload := [0xc0] },
    { eventType := "my.app.logout", payload := [0xc0] }]

/-- Nothing emitted and one entry emitted are told alike. -/
theorem not_determines_twoEntries :
    ∃ o o' : Outcomes,
      exec (emitter o) (emitBatch twoEntries) [] = (.error (.errno EINVAL), []) ∧
      exec (emitter o') (emitBatch twoEntries) []
        = (.error (.errno EINVAL), [{ eventType := utf8 "my.app.login", payload := [0xc0] }]) ∧
      ¬ Determines twoEntries := by
  have hfits : Fits twoEntries := by
    constructor
    · decide
    · intro entry hentry
      rw [twoEntries, List.mem_pair] at hentry
      rcases hentry with rfl | rfl
      · exact ⟨by decide, by decide⟩
      · exact ⟨by decide, by decide⟩
  refine ⟨fun _ => .stopped 0 EINVAL (.inl rfl), fun told =>
    if h : 1 < told.length then .stopped 1 EINVAL (.inr h) else .complete, ?_, ?_, ?_⟩
  · rw [exec_emitBatch hfits]
    rfl
  · rw [exec_emitBatch hfits]
    rfl
  · rintro ⟨count, hcount⟩
    have h0 := hcount fun _ => .stopped 0 EINVAL (.inl rfl)
    have h1 := hcount fun told =>
      if h : 1 < told.length then .stopped 1 EINVAL (.inr h) else .complete
    rw [exec_emitBatch hfits] at h0 h1
    exact absurd (h0.trans h1.symm) (by decide)

end Peios.Event
