import Peios.Bytes.LittleEndian

/-!
# Events as a ring holds them

An event in a ring is a fixed header, the type string and the payload, one after the other
(`pkm/kmes.h`).  `Published` is such an event and `Published.encode` its bytes.
-/

namespace Peios.EventRing

open ByteString

/-- A 16-byte GUID, as its bytes. -/
abbrev Guid := Vector UInt8 16

/-- `KMES_EVENT_HEADER_BASE_SIZE`. -/
def KMES_EVENT_HEADER_BASE_SIZE : Nat := 77

/-- An event that fits the widths of its header's fields. -/
structure Published where
  timestamp : UInt64
  sequence : UInt64
  cpuId : UInt16
  originClass : UInt8
  effectiveTokenGuid : Guid
  trueTokenGuid : Guid
  processGuid : Guid
  eventType : List UInt8
  payload : List UInt8
  eventType_lt : eventType.length < 2 ^ 16
  size_lt : KMES_EVENT_HEADER_BASE_SIZE + eventType.length + payload.length < 2 ^ 32

namespace Published

variable (e : Published)

/-- `header_size`: where the payload starts. -/
def headerSize : Nat := KMES_EVENT_HEADER_BASE_SIZE + e.eventType.length

/-- `event_size`. -/
def size : Nat := e.headerSize + e.payload.length

/-- The fields of the fixed header. -/
def fields : List (List UInt8) :=
  [leBytes 4 e.size, leBytes 4 e.headerSize, leBytes 8 e.timestamp.toNat,
    leBytes 8 e.sequence.toNat, leBytes 2 e.cpuId.toNat, [e.originClass],
    e.effectiveTokenGuid.toList, e.trueTokenGuid.toList, e.processGuid.toList,
    leBytes 2 e.eventType.length]

/-- The fixed header. -/
def header : List UInt8 := e.fields.flatten

/-- The bytes of the event. -/
def encode : List UInt8 := e.header ++ (e.eventType ++ e.payload)

@[simp] theorem length_header : e.header.length = KMES_EVENT_HEADER_BASE_SIZE := by
  simp [header, fields, KMES_EVENT_HEADER_BASE_SIZE]

@[simp] theorem length_encode : e.encode.length = e.size := by
  rw [encode, List.length_append, List.length_append, length_header, size, headerSize,
    Nat.add_assoc]

/-- Where a field of the header lies. -/
theorem header_field (k : Nat) (hk : k < e.fields.length) :
    (e.header.drop (e.fields.take k).flatten.length).take e.fields[k].length = e.fields[k] := by
  have hsplit : e.header = (e.fields.take k).flatten ++ (e.fields[k] ++
      (e.fields.drop (k + 1)).flatten) := by
    rw [← List.flatten_cons, ← List.drop_eq_getElem_cons hk, ← List.flatten_append,
      List.take_append_drop, header]
  rw [hsplit, List.drop_left, List.take_left]

theorem size_pos : 0 < e.size :=
  Nat.lt_of_lt_of_le (by decide) (Nat.le_trans (Nat.le_add_right _ _) (Nat.le_add_right _ _))

/-- Where the type string lies. -/
theorem encode_eventType :
    (e.encode.drop KMES_EVENT_HEADER_BASE_SIZE).take e.eventType.length = e.eventType := by
  rw [encode, ← length_header e, List.drop_left, List.take_left]

/-- Where the payload lies. -/
theorem encode_payload : (e.encode.drop e.headerSize).take e.payload.length = e.payload := by
  have hpre : (e.header ++ e.eventType).length = e.headerSize := by
    rw [List.length_append, length_header, headerSize]
  rw [encode, ← List.append_assoc, ← hpre, List.drop_left, List.take_length]

end Published

end Peios.EventRing
