import Peios.Token.Equiv.Builder

/-!
# Which error a builder reports

A builder has two latches, `pending` in Rust and the one of libpeios.  Each keeps its own first
error, and neither knows of the other's.  `error` looks at `pending` first, so a rejection by Rust
hides one by libpeios that came before it.

`Latches` says what is in both.  `reports_first_iff` says when the error that is reported is that of
the first setter that was rejected.
-/

namespace Peios.Token

open Interaction Prog Latched ByteString
open Security (SidLib)

variable {sids : SidLib} {B : Type} {lib : TokenLib B}

/-! ### What is in the latches -/

/-- The setters since the last reset, after one more operation. -/
def Op.since (setters : List (Setter sids)) : Op sids → List (Setter sids)
  | set setter => setters ++ [setter]
  | reset => []

/-- The setters since the last reset. -/
def sinceReset (ops : List (Op sids)) : List (Setter sids) := ops.foldl Op.since []

/-- Rust rejects one of the setters. -/
def RustRejects (setters : List (Setter sids)) : Prop := ∃ setter ∈ setters, setter.malformed = true

instance (setters : List (Setter sids)) : Decidable (RustRejects setters) :=
  inferInstanceAs (Decidable (∃ setter ∈ setters, setter.malformed = true))

theorem not_rustRejects_nil : ¬ RustRejects ([] : List (Setter sids)) := by
  rintro ⟨setter, hmem, -⟩
  cases hmem

theorem rustRejects_concat {setters : List (Setter sids)} {setter : Setter sids} :
    RustRejects (setters ++ [setter]) ↔ RustRejects setters ∨ setter.malformed = true := by
  unfold RustRejects
  simp only [List.mem_append, List.mem_singleton, or_and_right, exists_or, exists_eq_left]

/-- The latch in Rust has what Rust rejects with, if it rejected a setter.  That of libpeios has the
first error if Rust did not. -/
structure Latches (h : History B) (setters : List (Setter sids)) (b : TokenBuilder)
    (s : Latched B Errno) : Prop extends Tracks h b s where
  pending : b.pending = if RustRejects setters then EINVAL else 0
  first : ¬ RustRejects setters → s.error = h.rejections.head?

variable {h : History B} {setters : List (Setter sids)} {b : TokenBuilder} {s : Latched B Errno}

theorem latches_start (lib : TokenLib B) :
    Latches lib.start ([] : List (Setter sids)) { pending := 0 } lib.empty where
  toTracks := tracks_start lib
  pending := (if_neg not_rustRejects_nil).symm
  first := fun _ => rfl

/-- Rust rejects every setter with the same error. -/
theorem Latches.latch (hl : Latches h setters b s) {setter : Setter sids}
    (hm : setter.malformed = true) :
    Latches { h with rejections := h.rejections ++ [EINVAL] } (setters ++ [setter])
      (b.latch EINVAL) s where
  toTracks := hl.toTracks.latch
  pending := by
    rw [if_pos (rustRejects_concat.mpr (.inr hm))]
    unfold TokenBuilder.latch
    split_ifs with h0
    · rfl
    · have hpending := hl.pending
      split_ifs at hpending with hrejects
      · exact hpending
      · exact absurd hpending h0
  first hnot := absurd (rustRejects_concat.mpr (.inr hm)) hnot

/-- What libpeios rejects is the first error when nothing was rejected before. -/
theorem Latches.push (hl : Latches h setters b s) {setter : Setter sids}
    (hm : setter.malformed = false) :
    Latches
      { held := (lib.step h.held setter.part).1
        rejections := h.rejections ++ (lib.step h.held setter.part).2.toList }
      (setters ++ [setter]) b (Latched.push lib.step s setter.part) where
  toTracks := hl.toTracks.push setter.part
  pending := by
    have hsame : RustRejects (setters ++ [setter]) ↔ RustRejects setters := by
      rw [rustRejects_concat, hm]
      simp
    rw [hl.pending]
    simp only [hsame]
  first hnot := by
    have hfirst := hl.first fun hrejects => hnot (rustRejects_concat.mpr (.inl hrejects))
    show s.error.or (lib.step s.inner setter.part).2 = _
    rw [hfirst, hl.held, List.head?_append, Option.head?_toList]

/-- **One step.** -/
theorem latches_op (lib : TokenLib B) (hl : Latches h setters b s) (op : Op sids) :
    ∃ b' s', exec lib.builder (op.run b) s = (.ok b', s') ∧
      Latches (lib.next h op) (op.since setters) b' s' := by
  cases op with
  | reset => exact ⟨_, _, rfl, latches_start lib⟩
  | set setter =>
    show ∃ b' s', exec lib.builder (setter.run b) s = _ ∧
      Latches (if setter.malformed then _ else _) _ b' s'
    cases hm : setter.malformed with
    | true =>
      rw [Setter.run_of_malformed hm, if_pos rfl]
      exact ⟨_, _, rfl, hl.latch hm⟩
    | false =>
      rw [Setter.run_of_wellFormed hm, if_neg Bool.false_ne_true]
      exact ⟨_, _, rfl, hl.push hm⟩

/-- **All steps.** -/
theorem latches_ops (hl : Latches h setters b s) (ops : List (Op sids)) :
    ∃ b' s', exec lib.builder (ops.foldlM Op.run b) s = (.ok b', s') ∧
      Latches (ops.foldl lib.next h) (ops.foldl Op.since setters) b' s' := by
  apply exec_foldlM (I := fun done b s =>
    Latches (done.foldl lib.next h) (done.foldl Op.since setters) b s) _ hl
  intro done b s op hl
  rw [List.foldl_append, List.foldl_append]
  exact latches_op lib hl op

/-! ### What is reported -/

variable {ops : List (Op sids)} {e : Errno}

/-- After a rejection the builder reports what Rust rejects with, if it rejected a setter, and the
first error otherwise. -/
theorem Latches.exec_error (lib : TokenLib B) (hl : Latches h setters b s)
    (hfirst : h.rejections.head? = some e) :
    exec lib.builder b.error s
      = (.error (.errno (if RustRejects setters then EINVAL else e)), s) := by
  have hpending := hl.pending
  unfold TokenBuilder.error
  split_ifs at hpending ⊢ with hp hrejects hrejects
  · rw [hpending]
    rfl
  · exact absurd hpending hp
  · rw [hpending] at hp
    exact absurd hp (by decide)
  · have herror : (lib.builder .error s).1 = e := by
      show s.error.getD 0 = e
      rw [hl.first hrejects, hfirst]
      rfl
    have hne : e ≠ 0 := by
      rintro rfl
      exact hl.error_ne ((hl.first hrejects).trans hfirst)
    rw [exec_bind_ok (exec_builderCall .error s), herror, if_neg hne]
    rfl

/-- The builder reports the error, whichever way it is asked. -/
def Reports (lib : TokenLib B) (ops : List (Op sids)) (s : Latched B Errno) (e : Errno) : Prop :=
  (exec lib.builder (session ops TokenBuilder.error) s).1 = .error (.errno e) ∧
  (exec lib.builder (session ops TokenBuilder.toBytes) s).1 = .error (.errno e) ∧
  (exec lib.builder (session ops TokenBuilder.create) s).1 = .error (.errno e)

/-- What is reported after a rejection. -/
theorem reports_iff (s : Latched B Errno) (hfirst : (lib.history ops).rejections.head? = some e)
    (e' : Errno) : Reports lib ops s e' ↔ e' = if RustRejects (sinceReset ops) then EINVAL else e := by
  have hnew : exec lib.builder TokenBuilder.new s = (.ok { pending := 0 }, lib.empty) := rfl
  obtain ⟨b, s', hops, hl⟩ := latches_ops (latches_start lib) ops
  have herror := hl.exec_error lib hfirst
  unfold Reports session TokenBuilder.toBytes TokenBuilder.create
  simp only [exec_bind_ok hnew, exec_bind_ok hops, exec_bind_error herror, herror]
  simp only [Except.error.injEq, Fault.errno.injEq, and_self]
  exact eq_comm

/-- **The first error is reported** exactly when Rust rejected no setter since the last reset, or
the first rejection was for the error that Rust rejects with. -/
theorem reports_first_iff (s : Latched B Errno)
    (hfirst : (lib.history ops).rejections.head? = some e) :
    Reports lib ops s e ↔ ¬ RustRejects (sinceReset ops) ∨ e = EINVAL := by
  rw [reports_iff s hfirst]
  split_ifs with hrejects
  · simp [hrejects]
  · simp [hrejects]

/-! ### A builder without memory -/

/-- libpeios has no memory for supplementary GIDs, which it refuses with `ENOMEM`. -/
def noMemory : TokenLib Unit where
  fresh := ()
  step _ part := ((), match part with
    | .suppGids _ => some 12
    | _ => none)
  step_ne_zero := by
    intro _ part h
    split at h
    · exact absurd h (by decide)
    · cases h
  bytes _ := .ok none
  create _ := .error 12

/-- No bytes are a SID; none is used here. -/
def noSids : SidLib where
  maxBytes := 0
  valid _ := false
  length_le := nofun
  maxBytes_lt := by decide

/-- GIDs that libpeios refuses. -/
def gids : Op noSids := .set (.supplementaryGids [100])

/-- A source name that is too long. -/
def longSource : Op noSids := .set (.source "too long a name" 1)

/-- Rust's rejection is reported where it came first. -/
theorem reports_first_sourceThenGids :
    (noMemory.history [longSource, gids]).rejections = [EINVAL, 12] ∧
    Reports noMemory [longSource, gids] noMemory.empty EINVAL :=
  ⟨by decide, (reports_first_iff _ rfl).mpr (.inr rfl)⟩

/-- The later error is reported. -/
theorem not_reports_first_gidsThenSource :
    (noMemory.history [gids, longSource]).rejections = [12, EINVAL] ∧
    Reports noMemory [gids, longSource] noMemory.empty EINVAL ∧
    ¬ Reports noMemory [gids, longSource] noMemory.empty 12 := by
  refine ⟨by decide, ⟨rfl, rfl, rfl⟩, ?_⟩
  rintro ⟨herror, -, -⟩
  exact absurd herror (by decide)

end Peios.Token
