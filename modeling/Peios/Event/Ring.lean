import Peios.Bytes.Utf8
import Peios.Error
import Peios.Event.Format
import Peios.Interaction.Prog

/-!
# Reading an event from a mapped ring

`EventRing::event_at` (`peios/src/event.rs`), as a program over the reads it makes of memory that it
shares with the producer: a `RingRead` is one of them.  A byte is read at an offset into the data
region, which is mapped twice, back to back.

`peios_event_ring_event_at` is the argument `parse`: a program over the same reads that fails or
returns a `RawEvent` and the event's size.
-/

namespace Peios.EventRing

open Interaction ByteString

/-! ### Events -/

/-- The classification of an event's origin. -/
inductive OriginClass where
  | userspace
  | kmes
  | kacs
  | lcs
  | other (v : UInt8)
  deriving DecidableEq, Repr

/-- `OriginClass::from_raw`. -/
def OriginClass.fromRaw (v : UInt8) : OriginClass :=
  if v = 0 then userspace
  else if v = 1 then kmes
  else if v = 2 then kacs
  else if v = 3 then lcs
  else other v

/-- A parsed event. -/
structure Event where
  timestamp : UInt64
  sequence : UInt64
  cpuId : UInt16
  originClass : OriginClass
  effectiveTokenGuid : Guid
  trueTokenGuid : Guid
  processGuid : Guid
  eventType : String
  payload : List UInt8
  deriving DecidableEq

/-- A `peios_event` that libpeios has filled for a ring of `cap` bytes.  Its two pointers are
offsets into the data region, and their ranges lie inside the mapping. -/
structure RawEvent (cap : Nat) where
  timestamp : UInt64
  sequence : UInt64
  cpuId : UInt16
  originClass : UInt8
  effectiveTokenGuid : Guid
  trueTokenGuid : Guid
  processGuid : Guid
  eventType : Nat
  eventTypeLen : Nat
  payload : Nat
  payloadLen : Nat
  eventType_mapped : eventType + eventTypeLen ≤ 2 * cap
  payload_mapped : payload + payloadLen ≤ 2 * cap

/-! ### Reads -/

/-- A read of shared memory. -/
inductive RingRead where
  | generation
  | writePos
  | tailPos
  | byte (offset : Nat)
  deriving DecidableEq, Repr

/-- What a read gives. -/
abbrev RingRead.Value : RingRead → Type
  | .byte _ => UInt8
  | _ => Nat

/-- A program over these reads. -/
abbrev RingProg := Prog RingRead RingRead.Value

/-- Read. -/
def read (c : RingRead) : RingProg c.Value := .lift c

/-- `copy_event_bytes`. -/
def copyEventBytes (source : Nat) : Nat → RingProg (List UInt8)
  | 0 => return []
  | length + 1 => do
    let b ← read (.byte source)
    let bytes ← copyEventBytes (source + 1) length
    return b :: bytes

/-- `Event::from_raw`. -/
def Event.fromRaw {cap : Nat} (raw : RawEvent cap) : RingProg (Except Errno Event) := do
  let typeBytes ← copyEventBytes raw.eventType raw.eventTypeLen
  match fromUtf8 typeBytes with
  | none => return .error EINVAL
  | some eventType =>
    let payload ← copyEventBytes raw.payload raw.payloadLen
    return .ok
      { timestamp := raw.timestamp, sequence := raw.sequence, cpuId := raw.cpuId,
        originClass := .fromRaw raw.originClass, effectiveTokenGuid := raw.effectiveTokenGuid,
        trueTokenGuid := raw.trueTokenGuid, processGuid := raw.processGuid, eventType, payload }

section

variable {cap : Nat} (parse : Nat → RingProg (Except Errno (RawEvent cap × Nat)))

/-- The event as it is read, with its size, before the final checks.  `room` is the distance to the
write position. -/
def readEvent (readPos room : Nat) : RingProg (Except Errno (Event × Nat)) := do
  match ← parse readPos with
  | .error e => return .error e
  | .ok (out, size) =>
    if room < size then return .error EINVAL
    else
      let event ← Event.fromRaw out
      return event.map fun ev => (ev, size)

/-- `EventRing::event_at`. -/
def eventAt (readPos : Nat) : RingProg (Except Errno (Event × Nat)) := do
  let generation ← read .generation
  let write ← read .writePos
  let tail ← read .tailPos
  if readPos < tail ∨ write ≤ readPos then return .error EAGAIN
  let event ← readEvent parse readPos (write - readPos)
  let tail ← read .tailPos
  if readPos < tail then return .error EAGAIN
  let generation' ← read .generation
  if generation' ≠ generation then return .error EAGAIN
  return event

/-- Read events one after another, as `event_at` is meant to be used: after each of them the read
position is advanced by its size.  It ends at the first error, or after `n` events. -/
def drain : Nat → Nat → RingProg (List Event × Nat × Option Errno)
  | 0, readPos => return ([], readPos, none)
  | n + 1, readPos => do
    match ← eventAt parse readPos with
    | .error e => return ([], readPos, some e)
    | .ok (event, size) =>
      let (events, last, e) ← drain n (readPos + size)
      return (event :: events, last, e)

end

end Peios.EventRing
