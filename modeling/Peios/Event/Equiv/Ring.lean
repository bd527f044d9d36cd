import Peios.Event.Ring
import Peios.Interaction.Interleave

/-!
# Events that are read are neither torn nor stale

`Ring` is what `EventRing.eventAt` shares with the producer, and `Step` what the producer may do to
it between any two reads: it may change a byte only when no event at or after the tail holds it, and
publish an event only when its bytes are complete.

`WellFormed` is what the steps preserve, and `Follows` what they never undo: positions of a
generation do not go back, and a generation that is gone does not return.  So when `eventAt` finds
the tail and the generation as it needs them at the end, every read in between was of an intact slot
(`live_of_between`), and `eventAt_snapshot` follows.
-/

namespace Peios.EventRing

open Interaction ByteString Relation

/-! ### What an event says -/

/-- The byte that stands for an origin class in an event's header. -/
inductive OriginClass.HasByte : OriginClass → UInt8 → Prop where
  | userspace : HasByte userspace 0
  | kmes : HasByte kmes 1
  | kacs : HasByte kacs 2
  | lcs : HasByte lcs 3
  /-- A byte that means nothing else is kept. -/
  | other {v : UInt8} : 3 < v → HasByte (other v) v

theorem OriginClass.hasByte_fromRaw (v : UInt8) : (fromRaw v).HasByte v := by
  unfold fromRaw
  split_ifs with h₀ h₁ h₂ h₃
  · exact h₀ ▸ .userspace
  · exact h₁ ▸ .kmes
  · exact h₂ ▸ .kacs
  · exact h₃ ▸ .lcs
  · refine .other ?_
    rw [← UInt8.toNat_inj] at h₀ h₁ h₂ h₃
    rw [UInt8.lt_iff_toNat_lt]
    exact (show 3 < v.toNat by grind)

/-- The event has the published event's header, type and payload. -/
structure Published.Gives (e : Published) (ev : Event) : Prop where
  timestamp : ev.timestamp = e.timestamp
  sequence : ev.sequence = e.sequence
  cpuId : ev.cpuId = e.cpuId
  originClass : ev.originClass.HasByte e.originClass
  effectiveTokenGuid : ev.effectiveTokenGuid = e.effectiveTokenGuid
  trueTokenGuid : ev.trueTokenGuid = e.trueTokenGuid
  processGuid : ev.processGuid = e.processGuid
  eventType : utf8 ev.eventType = e.eventType
  payload : ev.payload = e.payload

/-! ### Rings -/

/-- An event published in a ring of `cap` bytes. -/
structure Slot (cap : Nat) where
  /-- The generation it was published in. -/
  generation : Nat
  pos : Nat
  event : Published
  fits : event.size ≤ cap

/-- What is shared, and what has been published. -/
structure Ring (cap : Nat) where
  generation : Nat
  tail : Nat
  write : Nat
  mem : Nat → UInt8
  /-- The generations before this one. -/
  past : List Nat
  /-- Every event ever published. -/
  log : List (Slot cap)

variable {cap : Nat}

namespace Slot

/-- The cell holds a byte of the event. -/
def Covers (x : Slot cap) (cell : Nat) : Prop := ∃ i < x.event.size, (x.pos + i) % cap = cell

/-- The memory holds the event's bytes. -/
def Holds (x : Slot cap) (mem : Nat → UInt8) : Prop :=
  ∀ i < x.event.size, x.event.encode[i]? = some (mem ((x.pos + i) % cap))

end Slot

namespace Ring

/-- What a read gives. -/
def answer : (c : RingRead) → Ring cap → c.Value
  | .generation, s => s.generation
  | .writePos, s => s.write
  | .tailPos, s => s.tail
  | .byte offset, s => s.mem (offset % cap)

/-- The event has not been overtaken by the tail. -/
def Current (s : Ring cap) (x : Slot cap) : Prop :=
  x ∈ s.log ∧ x.generation = s.generation ∧ s.tail ≤ x.pos

/-- What holds of a ring at any time. -/
structure WellFormed (s : Ring cap) : Prop where
  generation_fresh : s.generation ∉ s.past
  known : ∀ x ∈ s.log, x.generation ∈ s.generation :: s.past
  within : ∀ x ∈ s.log, x.generation = s.generation → x.pos + x.event.size ≤ s.write
  holds : ∀ x, s.Current x → x.Holds s.mem
  unique : ∀ x ∈ s.log, ∀ y ∈ s.log, x.generation = y.generation → x.pos = y.pos → x = y

end Ring

/-- A step of the producer. -/
inductive Step : Ring cap → Ring cap → Prop
  | advanceTail {s : Ring cap} {tail : Nat} : s.tail ≤ tail → Step s { s with tail }
  /-- A byte is changed that no event at or after the tail holds. -/
  | store {s : Ring cap} {cell : Nat} (b : UInt8) : (∀ x, s.Current x → ¬ x.Covers cell) →
      Step s { s with mem := Function.update s.mem cell b }
  /-- An event whose bytes are complete is published. -/
  | publish {s : Ring cap} {x : Slot cap} : x.generation = s.generation → x.pos = s.write →
      x.Holds s.mem → Step s { s with write := s.write + x.event.size, log := x :: s.log }
  /-- The ring is replaced, under a generation that has not been used, by one with any positions and
  bytes and with events it has room for and holds. -/
  | regenerate {s : Ring cap} {generation tail write : Nat} {mem : Nat → UInt8}
      {events : List (Slot cap)} : generation ∉ s.generation :: s.past →
      (∀ x ∈ events, x.generation = generation ∧ x.pos + x.event.size ≤ write ∧
        (tail ≤ x.pos → x.Holds mem)) →
      (events.map Slot.pos).Nodup →
      Step s { generation, tail, write, mem, past := s.generation :: s.past,
               log := events ++ s.log }

/-- A ring without events. -/
def Ring.empty (generation pos : Nat) (mem : Nat → UInt8) : Ring cap :=
  { generation, tail := pos, write := pos, mem, past := [], log := [] }

/-! ### What the steps preserve -/

namespace Ring

theorem wellFormed_empty (generation pos : Nat) (mem : Nat → UInt8) :
    (empty generation pos mem : Ring cap).WellFormed where
  generation_fresh := List.not_mem_nil
  known := nofun
  within := nofun
  holds _ hx := absurd hx.1 List.not_mem_nil
  unique := nofun

end Ring

theorem Ring.WellFormed.advanceTail {s : Ring cap} (hs : s.WellFormed) {tail : Nat}
    (htail : s.tail ≤ tail) : Ring.WellFormed { s with tail } := by
  refine { hs with holds := fun x hx => hs.holds x ⟨hx.1, hx.2.1, ?_⟩ }
  exact Nat.le_trans htail hx.2.2

theorem Ring.WellFormed.store {s : Ring cap} (hs : s.WellFormed) {cell : Nat} (b : UInt8)
    (hcell : ∀ x, s.Current x → ¬ x.Covers cell) :
    Ring.WellFormed { s with mem := Function.update s.mem cell b } := by
  refine { hs with holds := fun x hx i hi => ?_ }
  have hne : (x.pos + i) % cap ≠ cell := fun heq => hcell x hx ⟨i, hi, heq⟩
  show _ = some (Function.update s.mem cell b ((x.pos + i) % cap))
  rw [Function.update_of_ne hne]
  exact hs.holds x hx i hi

theorem Ring.WellFormed.publish {s : Ring cap} (hs : s.WellFormed) {x : Slot cap}
    (hgen : x.generation = s.generation) (hpos : x.pos = s.write) (hx : x.Holds s.mem) :
    Ring.WellFormed { s with write := s.write + x.event.size, log := x :: s.log } := by
  -- an event that was there ends at the old write position, so it starts before it
  have hne : ∀ y ∈ s.log, y.generation = x.generation → y.pos ≠ x.pos := by
    intro y hy hyx heq
    have := hs.within y hy (hyx.trans hgen)
    have := y.event.size_pos
    omega
  refine ⟨hs.generation_fresh, ?_, ?_, ?_, ?_⟩
  · intro y hy
    rcases List.mem_cons.mp hy with rfl | hy
    · exact hgen ▸ List.mem_cons_self
    · exact hs.known y hy
  · intro y hy hyg
    rcases List.mem_cons.mp hy with rfl | hy
    · exact Nat.le_of_eq (congrArg (· + _) hpos)
    · exact Nat.le_trans (hs.within y hy hyg) (Nat.le_add_right _ _)
  · intro y hy
    rcases List.mem_cons.mp hy.1 with rfl | hmem
    · exact hx
    · exact hs.holds y ⟨hmem, hy.2⟩
  · intro y hy z hz hyz hpos'
    rcases List.mem_cons.mp hy with rfl | hy' <;> rcases List.mem_cons.mp hz with rfl | hz'
    · rfl
    · exact absurd hpos'.symm (hne z hz' hyz.symm)
    · exact absurd hpos' (hne y hy' hyz)
    · exact hs.unique y hy' z hz' hyz hpos'

theorem Ring.WellFormed.regenerate {s : Ring cap} (hs : s.WellFormed) {generation tail write : Nat}
    {mem : Nat → UInt8} {events : List (Slot cap)} (hfresh : generation ∉ s.generation :: s.past)
    (hevents : ∀ x ∈ events, x.generation = generation ∧ x.pos + x.event.size ≤ write ∧
      (tail ≤ x.pos → x.Holds mem))
    (hpos : (events.map Slot.pos).Nodup) :
    Ring.WellFormed { generation, tail, write, mem, past := s.generation :: s.past,
                      log := events ++ s.log } := by
  -- the events that were there are of other generations
  have hold : ∀ x ∈ s.log, x.generation ≠ generation := by
    rintro x hx rfl
    exact hfresh (hs.known x hx)
  have hnew : ∀ x ∈ events ++ s.log, x.generation = generation → x ∈ events := by
    intro x hx hgen
    exact (List.mem_append.mp hx).resolve_right fun h => hold x h hgen
  refine ⟨hfresh, ?_, ?_, ?_, ?_⟩
  · intro x hx
    rcases List.mem_append.mp hx with hx | hx
    · exact (hevents x hx).1 ▸ List.mem_cons_self
    · exact List.mem_cons_of_mem _ (hs.known x hx)
  · intro x hx hgen
    exact (hevents x (hnew x hx hgen)).2.1
  · intro x hx
    exact (hevents x (hnew x hx.1 hx.2.1)).2.2 hx.2.2
  · intro x hx y hy hxy heq
    by_cases hgen : x.generation = generation
    · have hy' := hnew y hy (hxy ▸ hgen)
      exact List.inj_on_of_nodup_map hpos (hnew x hx hgen) hy' heq
    · have hx := (List.mem_append.mp hx).resolve_left fun h => hgen (hevents x h).1
      have hy := (List.mem_append.mp hy).resolve_left fun h => hgen (hxy.trans (hevents y h).1)
      exact hs.unique x hx y hy hxy heq

/-- A step of the producer leaves a well-formed ring. -/
theorem Step.wellFormed {s t : Ring cap} (h : Step s t) (hs : s.WellFormed) : t.WellFormed := by
  cases h with
  | advanceTail htail => exact hs.advanceTail htail
  | store b hcell => exact hs.store b hcell
  | publish hgen hpos hx => exact hs.publish hgen hpos hx
  | regenerate hfresh hevents hpos => exact hs.regenerate hfresh hevents hpos

/-- What the steps never undo. -/
structure Ring.Follows (s t : Ring cap) : Prop where
  past : ∀ g ∈ s.past, g ∈ t.past
  log : ∀ x ∈ s.log, x ∈ t.log
  /-- The positions have not gone back, or the generation is gone. -/
  positions : (t.generation = s.generation ∧ s.tail ≤ t.tail ∧ s.write ≤ t.write) ∨
    s.generation ∈ t.past

theorem Step.follows {s t : Ring cap} (h : Step s t) : s.Follows t := by
  cases h with
  | advanceTail htail => exact ⟨fun _ h => h, fun _ h => h, .inl ⟨rfl, htail, Nat.le_refl _⟩⟩
  | store => exact ⟨fun _ h => h, fun _ h => h, .inl ⟨rfl, Nat.le_refl _, Nat.le_refl _⟩⟩
  | publish =>
    exact ⟨fun _ h => h, fun _ h => List.mem_cons_of_mem _ h,
      .inl ⟨rfl, Nat.le_refl _, Nat.le_add_right _ _⟩⟩
  | regenerate =>
    exact ⟨fun _ h => List.mem_cons_of_mem _ h, fun _ h => List.mem_append_right _ h,
      .inr List.mem_cons_self⟩

namespace Ring

theorem Follows.refl (s : Ring cap) : s.Follows s :=
  ⟨fun _ h => h, fun _ h => h, .inl ⟨rfl, Nat.le_refl _, Nat.le_refl _⟩⟩

theorem Follows.trans {s t u : Ring cap} (h₁ : s.Follows t) (h₂ : t.Follows u) : s.Follows u := by
  refine ⟨fun g hg => h₂.past g (h₁.past g hg), fun x hx => h₂.log x (h₁.log x hx), ?_⟩
  -- a generation that is gone stays gone
  rcases h₁.positions with ⟨hg₁, htail₁, hwrite₁⟩ | hgone
  · rcases h₂.positions with ⟨hg₂, htail₂, hwrite₂⟩ | hgone
    · exact .inl ⟨hg₂.trans hg₁, Nat.le_trans htail₁ htail₂, Nat.le_trans hwrite₁ hwrite₂⟩
    · exact .inr (hg₁ ▸ hgone)
  · exact .inr (h₂.past _ hgone)

/-- **A run of the producer** undoes none of it, and leaves a well-formed ring. -/
theorem follows_of_steps {s t : Ring cap} (h : ReflTransGen Step s t) (hs : s.WellFormed) :
    s.Follows t ∧ t.WellFormed := by
  induction h with
  | refl => exact ⟨.refl s, hs⟩
  | tail _ hstep ih => exact ⟨ih.1.trans hstep.follows, hstep.wellFormed ih.2⟩

/-- When a ring is back at a generation, it has never left it. -/
theorem Follows.same {s t u : Ring cap} (h₁ : s.Follows t) (h₂ : t.Follows u)
    (hu : u.WellFormed) (hgen : u.generation = s.generation) :
    t.generation = s.generation ∧ s.tail ≤ t.tail ∧ s.write ≤ t.write := by
  rcases h₁.positions with h | hgone
  · exact h
  · -- otherwise `u` has a generation of its own past
    exact absurd (hgen ▸ h₂.past _ hgone) hu.generation_fresh

end Ring

/-! ### Intact slots -/

/-- The event is in the ring, and its slot is intact. -/
structure Ring.Live (s : Ring cap) (x : Slot cap) : Prop where
  current : s.Current x
  within : x.pos + x.event.size ≤ s.write
  holds : x.Holds s.mem

theorem Ring.Current.live {s : Ring cap} {x : Slot cap} (h : s.Current x) (hs : s.WellFormed) :
    s.Live x :=
  ⟨h, hs.within x h.1 h.2.1, hs.holds x h⟩

/-- **An event is intact as long as the tail has not passed it**: between a moment at which it is in
the ring, and a later one of the same generation with the tail still behind it. -/
theorem live_of_between {s t u v : Ring cap} {x : Slot cap} (hs : s.Current x)
    (hst : s.Follows t) (htu : t.Follows u) (huv : u.Follows v) (ht : t.WellFormed)
    (hv : v.WellFormed) (hgen : v.generation = s.generation) (htail : u.tail ≤ x.pos) :
    t.Live x := by
  obtain ⟨hgent, -, -⟩ := hst.same (htu.trans huv) hv hgen
  obtain ⟨-, htailtu, -⟩ := htu.same huv hv (hgen.trans hgent.symm)
  have hcurrent : t.Current x :=
    ⟨hst.log x hs.1, hs.2.1.trans hgent.symm, Nat.le_trans htailtu htail⟩
  exact hcurrent.live ht

/-! ### Reading an intact slot -/

namespace Slot

/-- What `peios_event_ring_event_at` makes of an intact slot. -/
def raw (x : Slot cap) : RawEvent cap where
  timestamp := x.event.timestamp
  sequence := x.event.sequence
  cpuId := x.event.cpuId
  originClass := x.event.originClass
  effectiveTokenGuid := x.event.effectiveTokenGuid
  trueTokenGuid := x.event.trueTokenGuid
  processGuid := x.event.processGuid
  eventType := x.pos % cap + KMES_EVENT_HEADER_BASE_SIZE
  eventTypeLen := x.event.eventType.length
  payload := x.pos % cap + x.event.headerSize
  payloadLen := x.event.payload.length
  eventType_mapped := by
    have hfits := x.fits
    have hpos : x.pos % cap < cap := Nat.mod_lt _ (Nat.lt_of_lt_of_le x.event.size_pos hfits)
    unfold Published.size Published.headerSize at hfits
    omega
  payload_mapped := by
    have hfits := x.fits
    have hpos : x.pos % cap < cap := Nat.mod_lt _ (Nat.lt_of_lt_of_le x.event.size_pos hfits)
    unfold Published.size at hfits
    omega

end Slot

/-- Copying part of an intact slot copies that part of the event. -/
theorem copy_intact {x : Slot cap} {s u : Ring cap} {tr : List (Ring cap)} {b : List UInt8}
    {start length : Nat}
    (h : Interleaved Step Ring.answer s (copyEventBytes (x.pos % cap + start) length) tr b u)
    (htr : ∀ t ∈ tr, t.Live x) (hend : start + length ≤ x.event.size) :
    b = (x.event.encode.drop start).take length := by
  induction length generalizing s u tr b start with
  | zero =>
    obtain ⟨-, rfl, -⟩ := h.ret_inv
    rfl
  | succ length ih =>
    obtain ⟨t, tr', -, htr', hrest⟩ := h.lift_bind_inv
    obtain ⟨tr₁, tr₂, bytes, s', rfl, h₁, h₂⟩ := hrest.bind_inv
    obtain ⟨rfl, rfl, -⟩ := h₂.ret_inv
    rw [htr', List.forall_mem_cons] at htr
    -- the byte is read from an intact slot, and so are the others
    have hnext : start + 1 + length ≤ x.event.size := by omega
    have hbytes := ih h₁ (fun t ht => htr.2 t (List.mem_append_left _ ht)) hnext
    have hbyte := htr.1.holds start (by omega)
    show t.mem ((x.pos % cap + start) % cap) :: bytes = _
    rw [Nat.mod_add_mod, hbytes]
    obtain ⟨hlt, hget⟩ := List.getElem?_eq_some_iff.mp hbyte
    rw [List.drop_eq_getElem_cons hlt, List.take_succ_cons, hget]

/-- What `Event::from_raw` makes of an intact slot's fields, with the type string decoded. -/
def Published.toEvent (e : Published) (eventType : String) : Event where
  timestamp := e.timestamp
  sequence := e.sequence
  cpuId := e.cpuId
  originClass := .fromRaw e.originClass
  effectiveTokenGuid := e.effectiveTokenGuid
  trueTokenGuid := e.trueTokenGuid
  processGuid := e.processGuid
  eventType := eventType
  payload := e.payload

theorem Published.gives_toEvent {e : Published} {eventType : String}
    (h : utf8 eventType = e.eventType) : e.Gives (e.toEvent eventType) where
  timestamp := rfl
  sequence := rfl
  cpuId := rfl
  originClass := OriginClass.hasByte_fromRaw _
  effectiveTokenGuid := rfl
  trueTokenGuid := rfl
  processGuid := rfl
  eventType := h
  payload := rfl

/-- `Event::from_raw` on an intact slot returns its event, if the type string is UTF-8. -/
theorem fromRaw_intact {x : Slot cap} {s u : Ring cap} {tr : List (Ring cap)}
    {r : Except Errno Event} (h : Interleaved Step Ring.answer s (Event.fromRaw x.raw) tr r u)
    (htr : ∀ t ∈ tr, t.Live x) :
    r = match fromUtf8 x.event.eventType with
      | none => .error EINVAL
      | some eventType => .ok (x.event.toEvent eventType) := by
  obtain ⟨tr₁, tr₂, typeBytes, t, rfl, h₁, h₂⟩ := h.bind_inv
  have htype : typeBytes = x.event.eventType := by
    rw [← x.event.encode_eventType]
    refine copy_intact h₁ (fun t ht => htr t (List.mem_append_left _ ht)) ?_
    exact Nat.le_add_right _ _
  rw [htype] at h₂
  cases hutf8 : fromUtf8 x.event.eventType with
  | none =>
    rw [hutf8] at h₂
    exact h₂.ret_inv.2.1
  | some eventType =>
    rw [hutf8] at h₂
    obtain ⟨tr₃, tr₄, payload, t', rfl, h₃, h₄⟩ := h₂.bind_inv
    have hpayload : payload = x.event.payload := by
      rw [← x.event.encode_payload]
      refine copy_intact h₃ (fun t ht => htr t ?_) (Nat.le_refl _)
      exact List.mem_append_right _ (List.mem_append_left _ ht)
    rw [hpayload] at h₄
    exact h₄.ret_inv.2.1

/-! ### The method -/

/-- What the method relies on of `peios_event_ring_event_at`: when every read it makes is of an
intact slot, it returns that slot's fields, size and ranges. -/
def ParsesSlots (parse : Nat → RingProg (Except Errno (RawEvent cap × Nat))) : Prop :=
  ∀ s tr r u (x : Slot cap), Interleaved Step Ring.answer s (parse x.pos) tr r u →
    (∀ t ∈ tr, t.Live x) → r = .ok (x.raw, x.event.size)

variable {parse : Nat → RingProg (Except Errno (RawEvent cap × Nat))}

/-- Reading an intact slot that lies before the write position returns its event and size. -/
theorem readEvent_intact (hparse : ParsesSlots parse) {x : Slot cap} {room : Nat}
    (hroom : x.event.size ≤ room) {s u : Ring cap} {tr : List (Ring cap)}
    {r : Except Errno (Event × Nat)}
    (h : Interleaved Step Ring.answer s (readEvent parse x.pos room) tr r u)
    (htr : ∀ t ∈ tr, t.Live x) :
    r = match fromUtf8 x.event.eventType with
      | none => .error EINVAL
      | some eventType => .ok (x.event.toEvent eventType, x.event.size) := by
  obtain ⟨tr₁, tr₂, parsed, t, rfl, h₁, h₂⟩ := h.bind_inv
  have hparsed := hparse _ _ _ _ x h₁ fun t ht => htr t (List.mem_append_left _ ht)
  rw [hparsed] at h₂
  have hroom' : ¬ room < x.event.size := Nat.not_lt.mpr hroom
  dsimp only at h₂
  rw [if_neg hroom'] at h₂
  obtain ⟨tr₃, tr₄, event, t', rfl, h₃, h₄⟩ := h₂.bind_inv
  have hevent := fromRaw_intact h₃ fun t ht =>
    htr t (List.mem_append_right _ (List.mem_append_left _ ht))
  rw [h₄.ret_inv.2.1, hevent]
  cases fromUtf8 x.event.eventType <;> rfl

/-- When it returns an event, that is the one in the slot. -/
theorem readEvent_intact_ok (hparse : ParsesSlots parse) {x : Slot cap} {room : Nat}
    (hroom : x.event.size ≤ room) {s u : Ring cap} {tr : List (Ring cap)} {ev : Event} {size : Nat}
    (h : Interleaved Step Ring.answer s (readEvent parse x.pos room) tr (.ok (ev, size)) u)
    (htr : ∀ t ∈ tr, t.Live x) :
    size = x.event.size ∧ x.event.Gives ev := by
  have hresult := readEvent_intact hparse hroom h htr
  cases hutf8 : fromUtf8 x.event.eventType with
  | none =>
    rw [hutf8] at hresult
    cases hresult
  | some eventType =>
    rw [hutf8] at hresult
    obtain ⟨rfl, rfl⟩ := Prod.mk.inj (Except.ok.inj hresult)
    exact ⟨rfl, Published.gives_toEvent (fromUtf8_eq_some.mp hutf8)⟩

/-- A run of the method that returns an event: the states it made its reads in, and what the last
three found. -/
theorem eventAt_inv {s u : Ring cap} {tr : List (Ring cap)} {pos : Nat} {ev : Event} {size : Nat}
    (h : Interleaved Step Ring.answer s (eventAt parse pos) tr (.ok (ev, size)) u) :
    ∃ t₀ t₁ t₂ tr' t₃ t₄ t₅, tr = t₀ :: (t₁ :: t₂ :: tr' ++ [t₄]) ++ [t₅] ∧
      ReflTransGen Step s t₀ ∧ ReflTransGen Step t₀ t₁ ∧ ReflTransGen Step t₁ t₂ ∧
      Interleaved Step Ring.answer t₂ (readEvent parse pos (t₁.write - pos)) tr'
        (.ok (ev, size)) t₃ ∧
      ReflTransGen Step t₃ t₄ ∧ ReflTransGen Step t₄ t₅ ∧ ReflTransGen Step t₅ u ∧
      t₂.tail ≤ pos ∧ pos < t₁.write ∧ t₄.tail ≤ pos ∧ t₅.generation = t₀.generation := by
  -- the generation and the two positions, and the check of the range
  obtain ⟨t₀, tr₀, hs₀, htr₀, h₀⟩ := h.lift_bind_inv
  obtain ⟨t₁, tr₁, hs₁, htr₁, h₁⟩ := h₀.lift_bind_inv
  obtain ⟨t₂, tr₂, hs₂, htr₂, h₂⟩ := h₁.lift_bind_inv
  split_ifs at h₂ with hrange
  · cases h₂.ret_inv.2.1
  rw [not_or, Nat.not_lt, Nat.not_le] at hrange
  -- the event, and then the tail and the generation once more
  obtain ⟨tr₃, tr₄, event, t₃, htr₃, hread, h₃⟩ := h₂.bind_inv
  obtain ⟨t₄, tr₅, hs₄, htr₄, h₄⟩ := h₃.lift_bind_inv
  split_ifs at h₄ with htail
  · cases h₄.ret_inv.2.1
  obtain ⟨t₅, tr₆, hs₅, htr₅, h₅⟩ := h₄.lift_bind_inv
  split_ifs at h₅ with hgen
  · cases h₅.ret_inv.2.1
  obtain ⟨rfl, rfl, hs₆⟩ := h₅.ret_inv
  subst htr₀ htr₁ htr₂ htr₃ htr₄ htr₅
  refine ⟨t₀, t₁, t₂, tr₃, t₃, t₄, t₅, by simp, hs₀, hs₁, hs₂, hread, hs₄, hs₅, hs₆, hrange.1,
    hrange.2, Nat.not_lt.mp htail, ?_⟩
  exact not_not.mp hgen

/-- What the method returned, when it made its reads in the states `tr`, is the event `x`. -/
structure IsSnapshot (x : Slot cap) (tr : List (Ring cap)) (u : Ring cap) (pos : Nat) (ev : Event)
    (size : Nat) : Prop where
  pos_eq : x.pos = pos
  size_eq : size = x.event.size
  gives : x.event.Gives ev
  /-- The event lies before the write position that was read, and its slot is intact at every read
  between the two of the generation, which agree. -/
  intact : ∃ t₀ t₁ mid t₂, tr = t₀ :: (t₁ :: mid) ++ [t₂] ∧ t₂.generation = t₀.generation ∧
    pos + size ≤ t₁.write ∧ ∀ t ∈ t₁ :: mid, t.Live x
  /-- No other event has been published there in the ring's generation. -/
  unique : ∀ y ∈ u.log, y.generation = x.generation → y.pos = pos → y = x

/-- **An event that is read is the one published at its position**, whatever the producer does in
the meantime, if the position is at each read an event boundary or outside the readable range. -/
theorem eventAt_snapshot (hparse : ParsesSlots parse) {generation start : Nat} {mem : Nat → UInt8}
    {u : Ring cap} {tr : List (Ring cap)} {pos : Nat} {ev : Event} {size : Nat}
    (h : Interleaved Step Ring.answer (Ring.empty generation start mem) (eventAt parse pos) tr
      (.ok (ev, size)) u)
    (hpos : ∀ t ∈ tr, t.tail ≤ pos → pos < t.write → ∃ x, t.Current x ∧ x.pos = pos) :
    ∃ x, IsSnapshot x tr u pos ev size := by
  obtain ⟨t₀, t₁, t₂, tr', t₃, t₄, t₅, rfl, h₀, h₀₁, h₁₂, hread, h₃₄, h₄₅, h₅, htail₂, hwrite,
    htail₄, hgen⟩ := eventAt_inv h
  -- every state of the run is well-formed, and follows those before it
  have hwf₀ := (Ring.follows_of_steps h₀ (Ring.wellFormed_empty generation start mem)).2
  obtain ⟨hf₀₁, hwf₁⟩ := Ring.follows_of_steps h₀₁ hwf₀
  obtain ⟨hf₁₂, hwf₂⟩ := Ring.follows_of_steps h₁₂ hwf₁
  obtain ⟨hf₂₃, hwf₃⟩ := Ring.follows_of_steps hread.reaches hwf₂
  obtain ⟨hf₃₄, hwf₄⟩ := Ring.follows_of_steps h₃₄ hwf₃
  obtain ⟨hf₄₅, hwf₅⟩ := Ring.follows_of_steps h₄₅ hwf₄
  obtain ⟨hf₅, hwf⟩ := Ring.follows_of_steps h₅ hwf₅
  -- the generation is the same at the end, so it was the same at every read
  have hf₂₄ := hf₂₃.trans hf₃₄
  have hf₁₄ := hf₁₂.trans hf₂₄
  obtain ⟨hgen₁, -, -⟩ := hf₀₁.same (hf₁₄.trans hf₄₅) hwf₅ hgen
  have hgen₅ : t₅.generation = t₁.generation := hgen.trans hgen₁.symm
  -- the position was readable when the write position was read
  obtain ⟨-, htail₁, -⟩ := hf₁₄.same hf₄₅ hwf₅ hgen₅
  obtain ⟨x, hx, rfl⟩ := hpos t₁ (by simp) (Nat.le_trans htail₁ htail₄) hwrite
  -- from there to the second read of the tail its slot is intact
  have hlive : ∀ t, t₁.Follows t → t.Follows t₄ → t.WellFormed → t.Live x := fun t h₁ h₂ hwft =>
    live_of_between hx h₁ h₂ hf₄₅ hwft hwf₅ hgen₅ htail₄
  have hmid : ∀ t ∈ tr', t.Live x := by
    intro t ht
    obtain ⟨hbefore, hafter⟩ := hread.between t ht
    obtain ⟨hf₂t, hwft⟩ := Ring.follows_of_steps hbefore hwf₂
    have hft₃ := (Ring.follows_of_steps hafter hwft).1
    exact hlive t (hf₁₂.trans hf₂t) (hft₃.trans hf₃₄) hwft
  have hlive₁ := hlive t₁ (.refl t₁) hf₁₄ hwf₁
  have hroom : x.event.size ≤ t₁.write - x.pos := by
    have := hlive₁.within
    omega
  obtain ⟨rfl, hevent⟩ := readEvent_intact_ok hparse hroom hread hmid
  refine ⟨x, rfl, rfl, hevent, ?_, ?_⟩
  · refine ⟨t₀, t₁, t₂ :: tr' ++ [t₄], t₅, rfl, hgen, hlive₁.within, ?_⟩
    simp only [List.mem_cons, List.mem_append, List.not_mem_nil, or_false]
    rintro t (rfl | (rfl | ht) | rfl)
    · exact hlive₁
    · exact hlive t hf₁₂ hf₂₄ hwf₂
    · exact hmid t ht
    · exact hlive t hf₁₄ (.refl t) hwf₄
  · intro y hy hygen hypos
    have hxu : x ∈ u.log := hf₅.log x (hf₄₅.log x (hf₁₄.log x hx.1))
    exact hwf.unique y hy x hxu hygen hypos

/-! ### A slot that nobody changes -/

/-- **An event that is there is returned**, when nobody moves while it is read, if its type is
UTF-8. -/
theorem eventAt_live (hparse : ParsesSlots parse) {s : Ring cap} {x : Slot cap} (hx : s.Live x) :
    (eventAt parse x.pos).run (fun c s => (Ring.answer c s, s)) s
      = (match fromUtf8 x.event.eventType with
        | none => .error EINVAL
        | some eventType => .ok (x.event.toEvent eventType, x.event.size), s) := by
  have hsize := x.event.size_pos
  have hwithin := hx.within
  have htail := hx.current.2.2
  have hrange : ¬ (x.pos < s.tail ∨ s.write ≤ x.pos) := by omega
  have hroom : x.event.size ≤ s.write - x.pos := by omega
  have hread : (readEvent parse x.pos (s.write - x.pos)).run (fun c s => (Ring.answer c s, s)) s
      = (match fromUtf8 x.event.eventType with
        | none => .error EINVAL
        | some eventType => .ok (x.event.toEvent eventType, x.event.size), s) := by
    have halone : ∃ tr, (∀ t ∈ tr, t = s) ∧ Interleaved Step Ring.answer s
        (readEvent parse x.pos (s.write - x.pos)) tr _ s := Interleaved.alone _ s
    obtain ⟨tr, htr, hrun⟩ := halone
    refine Prod.ext (readEvent_intact hparse hroom hrun fun t ht => htr t ht ▸ hx) ?_
    exact Prog.run_invariant (fun t => t = s) (fun _ _ ht => ht) _ rfl
  have htail' : ¬ x.pos < s.tail := Nat.not_lt.mpr htail
  have hgen : ¬ s.generation ≠ s.generation := fun h => h rfl
  unfold eventAt
  show Prog.run _ (if x.pos < s.tail ∨ s.write ≤ x.pos then _
    else readEvent parse x.pos (s.write - x.pos) >>= _) s = _
  rw [if_neg hrange, Prog.run_bind, hread]
  show Prog.run _ (if x.pos < s.tail then _ else _) s = _
  rw [if_neg htail']
  show Prog.run _ (if s.generation ≠ s.generation then _ else _) s = _
  rw [if_neg hgen]
  rfl

theorem eventAt_alone (hparse : ParsesSlots parse) {s : Ring cap} {x : Slot cap} (hx : s.Live x)
    {eventType : String} (hutf8 : utf8 eventType = x.event.eventType) :
    ((eventAt parse x.pos).run (fun c s => (Ring.answer c s, s)) s).1
      = .ok (x.event.toEvent eventType, x.event.size) := by
  rw [eventAt_live hparse hx, fromUtf8_eq_some.mpr hutf8]

/-! ### A parser -/

/-- The bytes of a field. -/
def field (b : List UInt8) (start length : Nat) : List UInt8 := (b.drop start).take length

/-- The GUID that bytes are. -/
def guidOf (b : List UInt8) : Guid := .ofFn fun i => b.getD i 0

theorem guidOf_toList (g : Guid) : guidOf g.toList = g := by
  refine Vector.ext fun i hi => ?_
  have hlt : i < g.toList.length := by rwa [Vector.length_toList]
  rw [guidOf, Vector.getElem_ofFn, List.getD_eq_getElem?_getD, List.getElem?_eq_getElem hlt,
    Option.getD_some, Vector.getElem_toList]

/-- The fields of a slot that starts at `base`, by its header. -/
def decodeHeader (cap base : Nat) (b : List UInt8) : Except Errno (RawEvent cap × Nat) :=
  let size := ofLeBytes (field b 0 4)
  let headerSize := ofLeBytes (field b 4 4)
  let typeLen := ofLeBytes (field b 75 2)
  if h : base + KMES_EVENT_HEADER_BASE_SIZE + typeLen ≤ 2 * cap ∧
      base + headerSize + (size - headerSize) ≤ 2 * cap then
    .ok ({ timestamp := .ofNat (ofLeBytes (field b 8 8)),
           sequence := .ofNat (ofLeBytes (field b 16 8)),
           cpuId := .ofNat (ofLeBytes (field b 24 2)),
           originClass := (field b 26 1).headD 0,
           effectiveTokenGuid := guidOf (field b 27 16),
           trueTokenGuid := guidOf (field b 43 16),
           processGuid := guidOf (field b 59 16),
           eventType := base + KMES_EVENT_HEADER_BASE_SIZE, eventTypeLen := typeLen,
           payload := base + headerSize, payloadLen := size - headerSize,
           eventType_mapped := h.1, payload_mapped := h.2 }, size)
  else .error EINVAL

/-- Copy the header of a slot, and decode it. -/
def parseSlot (cap pos : Nat) : RingProg (Except Errno (RawEvent cap × Nat)) := do
  let header ← copyEventBytes (pos % cap + 0) KMES_EVENT_HEADER_BASE_SIZE
  return decodeHeader cap (pos % cap) header

/-- A number in the header. -/
theorem ofLeBytes_field (e : Published) {k start n v : Nat} (hk : k < e.fields.length)
    (hstart : (e.fields.take k).flatten.length = start) (hfield : e.fields[k] = leBytes n v)
    (hv : v < 256 ^ n) : ofLeBytes (field e.header start n) = v := by
  have hbytes := e.header_field k hk
  rw [hstart, hfield, length_leBytes] at hbytes
  rw [field, hbytes, ofLeBytes_leBytes n v hv]

/-- A GUID in the header. -/
theorem guidOf_field (e : Published) {k start : Nat} {g : Guid} (hk : k < e.fields.length)
    (hstart : (e.fields.take k).flatten.length = start) (hfield : e.fields[k] = g.toList) :
    guidOf (field e.header start 16) = g := by
  have hbytes := e.header_field k hk
  rw [hstart, hfield, Vector.length_toList] at hbytes
  rw [field, hbytes, guidOf_toList]

theorem decodeHeader_header (x : Slot cap) :
    decodeHeader cap (x.pos % cap) x.event.header = .ok (x.raw, x.event.size) := by
  have hk : ∀ k < 10, k < x.event.fields.length := fun k hk => hk
  -- the fields of the header are found where `decodeHeader` looks for them
  have hsize : ofLeBytes (field x.event.header 0 4) = x.event.size :=
    ofLeBytes_field x.event (hk 0 (by decide)) rfl rfl x.event.size_lt
  have hheader : ofLeBytes (field x.event.header 4 4) = x.event.headerSize :=
    ofLeBytes_field x.event (hk 1 (by decide)) (by simp [Published.fields]) rfl
      (Nat.lt_of_le_of_lt (Nat.le_add_right _ _) x.event.size_lt)
  have hlen : ofLeBytes (field x.event.header 75 2) = x.event.eventType.length :=
    ofLeBytes_field x.event (hk 9 (by decide)) (by simp [Published.fields]) rfl
      x.event.eventType_lt
  have htimestamp : ofLeBytes (field x.event.header 8 8) = x.event.timestamp.toNat :=
    ofLeBytes_field x.event (hk 2 (by decide)) (by simp [Published.fields]) rfl
      x.event.timestamp.toNat_lt
  have hsequence : ofLeBytes (field x.event.header 16 8) = x.event.sequence.toNat :=
    ofLeBytes_field x.event (hk 3 (by decide)) (by simp [Published.fields]) rfl
      x.event.sequence.toNat_lt
  have hcpu : ofLeBytes (field x.event.header 24 2) = x.event.cpuId.toNat :=
    ofLeBytes_field x.event (hk 4 (by decide)) (by simp [Published.fields]) rfl
      x.event.cpuId.toNat_lt
  have horigin : field x.event.header 26 1 = [x.event.originClass] := by
    have hbytes := x.event.header_field 5 (hk 5 (by decide))
    simpa [field, Published.fields] using hbytes
  have heffective : guidOf (field x.event.header 27 16) = x.event.effectiveTokenGuid :=
    guidOf_field x.event (hk 6 (by decide)) (by simp [Published.fields]) rfl
  have htrue : guidOf (field x.event.header 43 16) = x.event.trueTokenGuid :=
    guidOf_field x.event (hk 7 (by decide)) (by simp [Published.fields]) rfl
  have hprocess : guidOf (field x.event.header 59 16) = x.event.processGuid :=
    guidOf_field x.event (hk 8 (by decide)) (by simp [Published.fields]) rfl
  have hpayload : x.event.size - x.event.headerSize = x.event.payload.length :=
    Nat.add_sub_cancel_left _ _
  unfold decodeHeader
  simp only [hsize, hheader, hlen, htimestamp, hsequence, hcpu, horigin, heffective, htrue,
    hprocess, hpayload]
  split
  · simp only [UInt64.ofNat_toNat, UInt16.ofNat_toNat, List.headD_cons]
    rfl
  · rename_i hmapped
    exact absurd ⟨x.raw.eventType_mapped, x.raw.payload_mapped⟩ hmapped

theorem parsesSlots_parseSlot : ParsesSlots (parseSlot cap) := by
  intro s tr r u x h htr
  obtain ⟨tr₁, tr₂, header, t, rfl, h₁, h₂⟩ := h.bind_inv
  have hsize : 0 + KMES_EVENT_HEADER_BASE_SIZE ≤ x.event.size := by
    unfold Published.size Published.headerSize
    omega
  have hheader := copy_intact h₁ (fun t ht => htr t (List.mem_append_left _ ht)) hsize
  have htake : (x.event.encode.drop 0).take KMES_EVENT_HEADER_BASE_SIZE = x.event.header := by
    rw [List.drop_zero, Published.encode, ← x.event.length_header, List.take_left]
  rw [h₂.ret_inv.2.1, hheader, htake, decodeHeader_header]

/-! ### A run -/

/-- The event of `event_snapshot_survives_overwrite_and_close`. -/
def testEvent : Published where
  timestamp := 0
  sequence := 0
  cpuId := 0
  originClass := 0
  effectiveTokenGuid := .replicate 16 0
  trueTokenGuid := .replicate 16 0
  processGuid := .replicate 16 0
  eventType := [97]
  payload := [1]
  eventType_lt := by decide
  size_lt := by decide

/-- That event at the start of a ring of that test's capacity. -/
def testSlot : Slot 4096 where
  generation := 0
  pos := 0
  event := testEvent
  fits := by decide

/-- The bytes of that ring. -/
def testMem (cell : Nat) : UInt8 := testEvent.encode.getD cell 0

/-- The ring, with the event published. -/
def testRing : Ring 4096 :=
  { (Ring.empty 0 0 testMem : Ring 4096) with write := 0 + testEvent.size, log := [testSlot] }

theorem testSlot_holds : testSlot.Holds testMem := by
  intro i hi
  have hlt : i < testEvent.encode.length := by rwa [Published.length_encode]
  have hcell : (testSlot.pos + i) % 4096 = i := by
    have hsize : testEvent.size = 79 := rfl
    show (0 + i) % 4096 = i
    rw [Nat.zero_add, Nat.mod_eq_of_lt]
    exact Nat.lt_of_lt_of_le hi (by decide)
  show testEvent.encode[i]? = _
  rw [hcell, testMem, List.getD_eq_getElem?_getD, List.getElem?_eq_getElem hlt, Option.getD_some]

/-- The event is published in an empty ring, and then read. -/
theorem eventAt_testRing :
    ∃ tr, Interleaved Step Ring.answer (Ring.empty 0 0 testMem) (eventAt (parseSlot 4096) 0) tr
        (.ok (testEvent.toEvent "a", 79)) testRing ∧
      ∃ x, IsSnapshot x tr testRing 0 (testEvent.toEvent "a") 79 := by
  have hcurrent : testRing.Current testSlot := ⟨List.mem_cons_self, rfl, Nat.le_refl _⟩
  have hlive : testRing.Live testSlot := ⟨hcurrent, Nat.le_refl _, testSlot_holds⟩
  have halone : ∃ tr, (∀ t ∈ tr, t = testRing) ∧ Interleaved Step Ring.answer testRing
      (eventAt (parseSlot 4096) 0) tr _ testRing := Interleaved.alone _ testRing
  obtain ⟨tr, htr, hrun⟩ := halone
  have hutf8 : utf8 "a" = testSlot.event.eventType := by decide
  have hresult := eventAt_alone parsesSlots_parseSlot hlive hutf8
  have hrun : Interleaved Step Ring.answer testRing (eventAt (parseSlot 4096) 0) tr
      (.ok (testEvent.toEvent "a", 79)) testRing := hresult ▸ hrun
  have hpublish : Step (Ring.empty 0 0 testMem) testRing :=
    .publish (x := testSlot) rfl rfl testSlot_holds
  have h := Interleaved.env hpublish hrun
  refine ⟨tr, h, eventAt_snapshot parsesSlots_parseSlot h fun t ht _ _ => ?_⟩
  obtain rfl := htr t ht
  exact ⟨testSlot, hcurrent, rfl⟩

end Peios.EventRing
