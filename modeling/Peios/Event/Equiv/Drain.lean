import Peios.Event.Equiv.Ring

/-!
# A drain returns the events as they were published

A consumer advances its read position by the size of each event it reads (`drain`).  The events of a
generation lie end to end in the ring (`Ring.Tiled`), so a position that is right once (`Ready`) is
right after every event, whatever the producer does in between.  What a drain returns is then a
stretch of what was published: nothing is left out, repeated or out of order (`drain_stretch`), and
a drain that nobody disturbs goes on to the write position (`drain_alone`).
-/

namespace Peios.EventRing

open Interaction ByteString Relation

variable {cap : Nat}

/-! ### Events that lie end to end -/

namespace Ring

/-- An event of the ring's generation. -/
def Has (s : Ring cap) (x : Slot cap) : Prop := x ∈ s.log ∧ x.generation = s.generation

/-- An event starts there, or the next one will. -/
def Starts (s : Ring cap) (pos : Nat) : Prop := pos = s.write ∨ ∃ x, s.Has x ∧ x.pos = pos

/-- The events of the ring's generation lie end to end. -/
structure Tiled (s : Ring cap) : Prop where
  next : ∀ x, s.Has x → s.Starts (x.pos + x.event.size)
  apart : ∀ x y, s.Has x → s.Has y → x.pos < y.pos → x.pos + x.event.size ≤ y.pos

/-- A consumer may read from the position. -/
structure Ready (s : Ring cap) (pos : Nat) : Prop where
  wellFormed : s.WellFormed
  tiled : s.Tiled
  starts : s.Starts pos

/-- A consumer may start where a ring without events does. -/
theorem ready_empty (generation pos : Nat) (mem : Nat → UInt8) :
    (empty generation pos mem : Ring cap).Ready pos where
  wellFormed := wellFormed_empty generation pos mem
  tiled := ⟨fun _ hx => absurd hx.1 List.not_mem_nil, fun _ _ hx => absurd hx.1 List.not_mem_nil⟩
  starts := .inl rfl

/-- The position after an event is as good as the one before it. -/
theorem Ready.next {s : Ring cap} {x : Slot cap} (hs : s.Ready x.pos) (hx : s.Has x) :
    s.Ready (x.pos + x.event.size) := ⟨hs.wellFormed, hs.tiled, hs.tiled.next x hx⟩

/-- At a position before the write position an event starts. -/
theorem Ready.exists_has {s : Ring cap} {pos : Nat} (hs : s.Ready pos) (hpos : pos < s.write) :
    ∃ x, s.Has x ∧ x.pos = pos :=
  hs.starts.resolve_left (Nat.ne_of_lt hpos)

/-! ### What the producer leaves of them -/

theorem Ready.publish {s : Ring cap} {x : Slot cap} {pos : Nat} (hs : s.Ready pos)
    (hgen : x.generation = s.generation) (hpos : x.pos = s.write) (hx : x.Holds s.mem) :
    Ring.Ready { s with write := s.write + x.event.size, log := x :: s.log } pos := by
  obtain ⟨hwf, htiled, hstarts⟩ := hs
  -- what was held still is, and where the write position was the new event is
  have hkeeps : ∀ pos, s.Starts pos →
      Starts { s with write := s.write + x.event.size, log := x :: s.log } pos := by
    rintro pos (rfl | ⟨y, hy, rfl⟩)
    · exact .inr ⟨x, ⟨List.mem_cons_self, hgen⟩, hpos⟩
    · exact .inr ⟨y, ⟨List.mem_cons_of_mem _ hy.1, hy.2⟩, rfl⟩
  refine ⟨hwf.publish hgen hpos hx, ⟨?_, ?_⟩, hkeeps pos hstarts⟩
  · intro y hy
    rcases List.mem_cons.mp hy.1 with rfl | hmem
    · exact .inl (congrArg (· + _) hpos)
    · exact hkeeps _ (htiled.next y ⟨hmem, hy.2⟩)
  · intro y z hy hz hlt
    rcases List.mem_cons.mp hy.1 with rfl | hymem <;> rcases List.mem_cons.mp hz.1 with rfl | hzmem
    · exact absurd hlt (Nat.lt_irrefl _)
    · -- an event that was there ends at the old write position
      have := hwf.within z hzmem hz.2
      omega
    · exact hpos ▸ hwf.within y hymem hy.2
    · exact htiled.apart y z ⟨hymem, hy.2⟩ ⟨hzmem, hz.2⟩ hlt

/-- A step within a generation leaves the position as good as it was. -/
theorem Ready.step {s t : Ring cap} {pos : Nat} (hs : s.Ready pos) (h : Step s t)
    (hgen : t.generation = s.generation) : t.Ready pos := by
  have hwf := h.wellFormed hs.wellFormed
  cases h with
  | advanceTail => exact ⟨hwf, ⟨hs.tiled.next, hs.tiled.apart⟩, hs.starts⟩
  | store => exact ⟨hwf, ⟨hs.tiled.next, hs.tiled.apart⟩, hs.starts⟩
  | publish hx hpos hholds => exact hs.publish hx hpos hholds
  | regenerate hfresh => exact absurd (hgen ▸ List.mem_cons_self) hfresh

/-- The same of a run. -/
theorem Ready.steps {s t : Ring cap} {pos : Nat} (hs : s.Ready pos) (h : ReflTransGen Step s t)
    (hgen : t.generation = s.generation) : t.Ready pos := by
  induction h using ReflTransGen.head_induction_on with
  | refl => exact hs
  | @head s m hstep hrest ih =>
    -- the generation at the end is the one at the start, so it was never another
    have hwf := hstep.wellFormed hs.wellFormed
    obtain ⟨hfollows, hwft⟩ := follows_of_steps hrest hwf
    have hsame := (hstep.follows.same hfollows hwft hgen).1
    exact ih (hs.step hstep hsame) (hgen.trans hsame.symm)

end Ring

/-! ### Stretches -/

/-- The event is what the slot holds. -/
def Slot.Delivers (x : Slot cap) (ev : Event) : Prop := x.event.Gives ev

/-- The events from one position to another, each where the one before it ends. -/
inductive Stretch (s : Ring cap) : Nat → List (Slot cap) → Nat → Prop
  | nil (pos : Nat) : Stretch s pos [] pos
  | cons {x : Slot cap} {xs : List (Slot cap)} {last : Nat} :
      s.Has x → Stretch s (x.pos + x.event.size) xs last → Stretch s x.pos (x :: xs) last

namespace Stretch

variable {s : Ring cap} {pos last : Nat} {xs : List (Slot cap)}

theorem has (h : Stretch s pos xs last) : ∀ x ∈ xs, s.Has x := by
  induction h with
  | nil => exact fun _ hx => absurd hx List.not_mem_nil
  | cons hx _ ih => exact List.forall_mem_cons.mpr ⟨hx, ih⟩

theorem le (h : Stretch s pos xs last) : pos ≤ last := by
  induction h with
  | nil => exact Nat.le_refl _
  | cons _ _ ih => exact Nat.le_trans (Nat.le_add_right _ _) ih

theorem pos_mem (h : Stretch s pos xs last) : ∀ x ∈ xs, pos ≤ x.pos ∧ x.pos < last := by
  induction h with
  | nil => exact fun _ hx => absurd hx List.not_mem_nil
  | @cons x xs last _ hrest ih =>
    have hsize := x.event.size_pos
    have hle := hrest.le
    refine List.forall_mem_cons.mpr ⟨by omega, fun y hy => ?_⟩
    have := ih y hy
    omega

/-- No event between the two positions is left out. -/
theorem mem_of_between (h : Stretch s pos xs last) (hwf : s.WellFormed) (htiled : s.Tiled)
    {y : Slot cap} (hy : s.Has y) (hpos : pos ≤ y.pos) (hlast : y.pos < last) : y ∈ xs := by
  induction h with
  | nil => exact absurd hlast (Nat.not_lt.mpr hpos)
  | @cons x xs last hx hrest ih =>
    rcases Nat.eq_or_lt_of_le hpos with heq | hlt
    · obtain rfl := hwf.unique x hx.1 y hy.1 (hx.2.trans hy.2.symm) heq
      exact List.mem_cons_self
    · exact List.mem_cons_of_mem _ (ih (htiled.apart x y hx hy hlt) hlast)

theorem length_le (h : Stretch s pos xs last) : xs.length ≤ last - pos := by
  induction h with
  | nil => exact Nat.zero_le _
  | @cons x xs last _ hrest ih =>
    have hsize := x.event.size_pos
    have hle := hrest.le
    rw [List.length_cons]
    omega

/-- An event starts where it ends, or the next one will. -/
theorem starts (h : Stretch s pos xs last) (htiled : s.Tiled) (hstarts : s.Starts pos) :
    s.Starts last := by
  induction h with
  | nil => exact hstarts
  | cons hx _ ih => exact ih (htiled.next _ hx)

end Stretch

/-! ### Draining -/

variable {parse : Nat → RingProg (Except Errno (RawEvent cap × Nat))}

/-- **A successful `event_at` returns the event that starts at its position**, and the position
after it is right again. -/
theorem eventAt_next (hparse : ParsesSlots parse) {s u : Ring cap} {tr : List (Ring cap)}
    {pos size : Nat} {ev : Event} (hs : s.Ready pos)
    (h : Interleaved Step Ring.answer s (eventAt parse pos) tr (.ok (ev, size)) u)
    (hgen : u.generation = s.generation) :
    ∃ x, u.Has x ∧ x.pos = pos ∧ x.Delivers ev ∧ size = x.event.size := by
  obtain ⟨t₀, t₁, t₂, tr', t₃, t₄, t₅, rfl, h₀, h₀₁, h₁₂, hread, h₃₄, h₄₅, h₅, -, hwrite, htail₄,
    hgen₅⟩ := eventAt_inv h
  have h₁₃ := h₁₂.trans hread.reaches
  have h₁₄ := h₁₃.trans h₃₄
  have h₄u := h₄₅.trans h₅
  -- the generation has been the same all the time, so an event starts at the position
  obtain ⟨hf₁, hwf₁⟩ := Ring.follows_of_steps (h₀.trans h₀₁) hs.wellFormed
  obtain ⟨hf₁u, hwfu⟩ := Ring.follows_of_steps (h₁₄.trans h₄u) hwf₁
  have hgen₁ := (hf₁.same hf₁u hwfu hgen).1
  obtain ⟨x, hx, rfl⟩ := (hs.steps (h₀.trans h₀₁) hgen₁).exists_has hwrite
  -- and its slot is intact until the tail is read for the last time
  obtain ⟨hf₁₄, hwf₄⟩ := Ring.follows_of_steps h₁₄ hwf₁
  have hf₄u := (Ring.follows_of_steps h₄u hwf₄).1
  have hgenu : u.generation = t₁.generation := hgen.trans hgen₁.symm
  have hcurrent : t₁.Current x := by
    have := (hf₁₄.same hf₄u hwfu hgenu).2.1
    exact ⟨hx.1, hx.2, Nat.le_trans this htail₄⟩
  have hlive : ∀ t ∈ tr', t.Live x := by
    intro t ht
    obtain ⟨hbefore, hafter⟩ := hread.between t ht
    obtain ⟨hf₁t, hwft⟩ := Ring.follows_of_steps (h₁₂.trans hbefore) hwf₁
    have hft₄ := (Ring.follows_of_steps (hafter.trans h₃₄) hwft).1
    exact live_of_between hcurrent hf₁t hft₄ hf₄u hwft hwfu hgenu htail₄
  have hroom : x.event.size ≤ t₁.write - x.pos := by
    have := hwf₁.within x hx.1 hx.2
    omega
  obtain ⟨rfl, hevent⟩ := readEvent_intact_ok hparse hroom hread hlive
  exact ⟨x, ⟨hf₁u.log x hx.1, hx.2.trans hgenu.symm⟩, rfl, hevent, rfl⟩

/-- A drain of at least one event: the first `event_at` of it, and the rest if there is one. -/
theorem drain_succ_inv {s u : Ring cap} {tr : List (Ring cap)} {n pos last : Nat}
    {events : List Event} {e : Option Errno}
    (h : Interleaved Step Ring.answer s (drain parse (n + 1) pos) tr (events, last, e) u) :
    (∃ errno, events = [] ∧ last = pos ∧ e = some errno ∧ ReflTransGen Step s u) ∨
    ∃ ev size events' tr₁ tr₂ t, events = ev :: events' ∧
      Interleaved Step Ring.answer s (eventAt parse pos) tr₁ (.ok (ev, size)) t ∧
      Interleaved Step Ring.answer t (drain parse n (pos + size)) tr₂ (events', last, e) u := by
  obtain ⟨tr₁, tr₂, r, t, rfl, h₁, h₂⟩ := h.bind_inv
  cases r with
  | error errno =>
    obtain ⟨-, hr, hrest⟩ := h₂.ret_inv
    cases hr
    exact .inl ⟨errno, rfl, rfl, rfl, h₁.reaches.trans hrest⟩
  | ok r =>
    obtain ⟨ev, size⟩ := r
    obtain ⟨tr₃, tr₄, ⟨events', last', e'⟩, t', rfl, h₃, h₄⟩ := h₂.bind_inv
    obtain ⟨-, hr, hrest⟩ := h₄.ret_inv
    cases hr
    refine .inr ⟨ev, size, events', tr₁, tr₃, t, rfl, h₁, ?_⟩
    exact h₃.followed hrest

/-- What a drain from one position to another has returned, in the ring it leaves. -/
structure Drained (u : Ring cap) (pos : Nat) (events : List Event) (last : Nat) : Prop where
  /-- The events are those of consecutive slots, in order. -/
  stretch : ∃ xs, Stretch u pos xs last ∧ List.Forall₂ Slot.Delivers xs events ∧
    ∀ x, x ∈ xs ↔ u.Has x ∧ pos ≤ x.pos ∧ x.pos < last
  /-- A consumer may go on from where it ended. -/
  ready : u.Ready last

/-- A stretch that has been delivered leaves none of its events out. -/
theorem Stretch.drained {u : Ring cap} {pos last : Nat} {xs : List (Slot cap)} {events : List Event}
    (hxs : Stretch u pos xs last) (hu : u.Ready pos) (hevents : List.Forall₂ Slot.Delivers xs events) :
    Drained u pos events last := by
  refine ⟨⟨xs, hxs, hevents, fun x => ⟨fun hx => ⟨hxs.has x hx, hxs.pos_mem x hx⟩, ?_⟩⟩, ?_⟩
  · exact fun ⟨hx, hpos, hlast⟩ => hxs.mem_of_between hu.wellFormed hu.tiled hx hpos hlast
  · exact ⟨hu.wellFormed, hu.tiled, hxs.starts hu.tiled hu.starts⟩

/-- **What is drained is a stretch of what was published**, whatever the producer does in the
meantime, if the generation is the same at the end. -/
theorem drain_stretch (hparse : ParsesSlots parse) {s u : Ring cap} {tr : List (Ring cap)}
    {n pos last : Nat} {events : List Event} {e : Option Errno} (hs : s.Ready pos)
    (h : Interleaved Step Ring.answer s (drain parse n pos) tr (events, last, e) u)
    (hgen : u.generation = s.generation) : Drained u pos events last := by
  -- the events lie end to end at the end of the drain, so it is enough that they are a stretch
  suffices hstretch : ∃ xs, Stretch u pos xs last ∧ List.Forall₂ Slot.Delivers xs events by
    obtain ⟨xs, hxs, hevents⟩ := hstretch
    exact hxs.drained (hs.steps h.reaches hgen) hevents
  induction n generalizing s tr pos events with
  | zero =>
    obtain ⟨-, hr, -⟩ := h.ret_inv
    cases hr
    exact ⟨[], .nil last, .nil⟩
  | succ n ih =>
    rcases drain_succ_inv h with
      ⟨errno, rfl, rfl, -, -⟩ | ⟨ev, size, events', tr₁, tr₂, t, rfl, hfirst, hrest⟩
    · exact ⟨[], .nil last, .nil⟩
    · -- the generation is the same when the first event has been read
      obtain ⟨hft, hwft⟩ := Ring.follows_of_steps hfirst.reaches hs.wellFormed
      obtain ⟨hfu, hwfu⟩ := Ring.follows_of_steps hrest.reaches hwft
      have hgent := (hft.same hfu hwfu hgen).1
      have hgenu : u.generation = t.generation := hgen.trans hgent.symm
      obtain ⟨x, hx, rfl, hdelivers, rfl⟩ := eventAt_next hparse hs hfirst hgent
      have hready := (hs.steps hfirst.reaches hgent).next hx
      obtain ⟨xs, hxs, hevents⟩ := ih hready hrest hgenu
      have hxu : u.Has x := ⟨hfu.log x hx.1, hx.2.trans hgenu.symm⟩
      exact ⟨x :: xs, .cons hxu hxs, .cons hdelivers hevents⟩

/-! ### A drain that nobody disturbs -/

/-- The events of a ring from a position to the write position. -/
theorem Ring.Ready.exists_stretch {s : Ring cap} {pos : Nat} (hs : s.Ready pos) :
    ∃ xs, Stretch s pos xs s.write := by
  induction hroom : s.write - pos using Nat.strong_induction_on generalizing pos with
  | _ room ih =>
  rcases hs.starts with rfl | ⟨x, hx, rfl⟩
  · exact ⟨[], .nil s.write⟩
  · have hwithin := hs.wellFormed.within x hx.1 hx.2
    have hsize := x.event.size_pos
    obtain ⟨xs, hxs⟩ := ih (s.write - (x.pos + x.event.size)) (by omega) (hs.next hx) rfl
    exact ⟨x :: xs, .cons hx hxs⟩

/-- `event_at` at the write position finds nothing. -/
theorem eventAt_write (s : Ring cap) :
    (eventAt parse s.write).run (fun c s => (Ring.answer c s, s)) s = (.error EAGAIN, s) := by
  unfold eventAt
  show Prog.run _ (if s.write < s.tail ∨ s.write ≤ s.write then _ else _) s = _
  rw [if_pos (.inr (Nat.le_refl _))]
  rfl

/-- How a drain ends that nobody disturbs: at the write position, or at an event whose type is not
UTF-8. -/
inductive EndsAt (s : Ring cap) : Nat → Errno → Prop
  | write : EndsAt s s.write EAGAIN
  | notUtf8 {x : Slot cap} : s.Has x → ¬ IsUtf8 x.event.eventType → EndsAt s x.pos EINVAL

/-- A drain of a stretch up to the write position. -/
theorem drain_run (hparse : ParsesSlots parse) {s : Ring cap} (hs : s.WellFormed) {pos n : Nat}
    {xs : List (Slot cap)} (hxs : Stretch s pos xs s.write) (htail : s.tail ≤ pos)
    (hn : xs.length < n) :
    ∃ ys events last e, Stretch s pos ys last ∧ List.Forall₂ Slot.Delivers ys events ∧
      EndsAt s last e ∧
      (drain parse n pos).run (fun c s => (Ring.answer c s, s)) s
        = ((events, last, some e), s) := by
  induction n generalizing pos xs with
  | zero => exact absurd hn (Nat.not_lt_zero _)
  | succ n ih =>
    cases hxs with
    | nil =>
      refine ⟨[], [], s.write, EAGAIN, .nil s.write, .nil, .write, ?_⟩
      show Prog.run _ (eventAt parse s.write >>= _) s = _
      rw [Prog.run_bind, eventAt_write]
      rfl
    | @cons x xs _ hx hrest =>
      have hlive : s.Live x := Ring.Current.live ⟨hx.1, hx.2, htail⟩ hs
      cases hutf8 : fromUtf8 x.event.eventType with
      | none =>
        refine ⟨[], [], x.pos, EINVAL, .nil x.pos, .nil, .notUtf8 hx (fromUtf8_eq_none.mp hutf8), ?_⟩
        show Prog.run _ (eventAt parse x.pos >>= _) s = _
        rw [Prog.run_bind, eventAt_live hparse hlive, hutf8]
        rfl
      | some eventType =>
        obtain ⟨ys, events, last, e, hys, hevents, hend, hrun⟩ :=
          ih hrest (Nat.le_trans htail (Nat.le_add_right _ _)) (Nat.lt_of_succ_lt_succ hn)
        have hdelivers : x.Delivers (x.event.toEvent eventType) :=
          Published.gives_toEvent (fromUtf8_eq_some.mp hutf8)
        refine ⟨x :: ys, _ :: events, last, e, .cons hx hys, .cons hdelivers hevents, hend, ?_⟩
        show Prog.run _ (eventAt parse x.pos >>= _) s = _
        rw [Prog.run_bind, eventAt_live hparse hlive, hutf8]
        show Prog.run _ (drain parse n (x.pos + x.event.size) >>= _) s = _
        rw [Prog.run_bind, hrun]
        rfl

/-- **A drain that nobody disturbs goes on to the write position**, unless it comes to an event
whose type is not UTF-8: it returns the events up to there, all of them and in order. -/
theorem drain_alone (hparse : ParsesSlots parse) {s : Ring cap} {pos n : Nat} (hs : s.Ready pos)
    (htail : s.tail ≤ pos) (hn : s.write - pos < n) :
    ∃ events last e, Drained s pos events last ∧ EndsAt s last e ∧
      (drain parse n pos).run (fun c s => (Ring.answer c s, s)) s
        = ((events, last, some e), s) := by
  obtain ⟨xs, hxs⟩ := hs.exists_stretch
  have hlength := hxs.length_le
  obtain ⟨ys, events, last, e, hys, hevents, hend, hrun⟩ :=
    drain_run hparse hs.wellFormed hxs htail (Nat.lt_of_le_of_lt hlength hn)
  exact ⟨events, last, e, hys.drained hs hevents, hend, hrun⟩

/-! ### A run -/

theorem testRing_ready : testRing.Ready 0 :=
  (Ring.ready_empty 0 0 testMem).step (.publish (x := testSlot) rfl rfl testSlot_holds) rfl

/-- The test event is drained, and then the ring is empty. -/
theorem drain_testRing_run :
    (drain (parseSlot 4096) 2 0).run (fun c s => (Ring.answer c s, s)) testRing
      = (([testEvent.toEvent "a"], 79, some EAGAIN), testRing) := by
  have hlive : testRing.Live testSlot :=
    Ring.Current.live ⟨List.mem_cons_self, rfl, Nat.le_refl _⟩ testRing_ready.wellFormed
  have hutf8 : fromUtf8 testSlot.event.eventType = some "a" := fromUtf8_eq_some.mpr (by decide)
  have hrest : (drain (parseSlot 4096) 1 testRing.write).run (fun c s => (Ring.answer c s, s))
      testRing = (([], 79, some EAGAIN), testRing) := by
    show Prog.run _ (eventAt (parseSlot 4096) testRing.write >>= _) testRing = _
    rw [Prog.run_bind, eventAt_write]
    rfl
  show Prog.run _ (eventAt (parseSlot 4096) testSlot.pos >>= _) testRing = _
  rw [Prog.run_bind, eventAt_live parsesSlots_parseSlot hlive, hutf8]
  show Prog.run _ (drain (parseSlot 4096) 1 testRing.write >>= _) testRing = _
  rw [Prog.run_bind, hrest]
  rfl

/-- The event is published in an empty ring, and then drained. -/
theorem drain_testRing :
    ∃ tr, Interleaved Step Ring.answer (Ring.empty 0 0 testMem) (drain (parseSlot 4096) 2 0) tr
        ([testEvent.toEvent "a"], 79, some EAGAIN) testRing ∧
      Drained testRing 0 [testEvent.toEvent "a"] 79 := by
  have halone : ∃ tr, (∀ t ∈ tr, t = testRing) ∧ Interleaved Step Ring.answer testRing
      (drain (parseSlot 4096) 2 0) tr _ testRing := Interleaved.alone _ testRing
  obtain ⟨tr, -, hrun⟩ := halone
  rw [drain_testRing_run] at hrun
  have hpublish : Step (Ring.empty 0 0 testMem) testRing :=
    .publish (x := testSlot) rfl rfl testSlot_holds
  have h := Interleaved.env hpublish hrun
  exact ⟨tr, h, drain_stretch parsesSlots_parseSlot (Ring.ready_empty 0 0 testMem) h rfl⟩

/-- And it is drained when nobody moves. -/
theorem drain_alone_testRing :
    ∃ events last e, Drained testRing 0 events last ∧ EndsAt testRing last e ∧
      (drain (parseSlot 4096) 80 0).run (fun c s => (Ring.answer c s, s)) testRing
        = ((events, last, some e), testRing) :=
  drain_alone parsesSlots_parseSlot testRing_ready (Nat.le_refl _) (by decide)

end Peios.EventRing
