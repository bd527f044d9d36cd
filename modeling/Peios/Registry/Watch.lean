import Peios.Slice

/-!
# Watch records

The decoder behind `Key::read_watch_events` (`peios/src/registry.rs`): `parse_watch_events` walks
a buffer record by record, `parse_watch_path` reads a record's subtree extension, and
`decode_watch_component` checks and copies a name.  The record loop takes its number of rounds as
an argument; `Equiv/Watch.lean` proves that one round more than the buffer has bytes is enough.
-/

namespace Peios.Registry

/-- `WATCH_EVENT_MIN_SIZE`. -/
def WATCH_EVENT_MIN_SIZE : Nat := 8
/-- `SUBTREE_WATCH_EVENT_DEPTH_LEN`. -/
def SUBTREE_WATCH_EVENT_DEPTH_LEN : Nat := 2
/-- `WATCH_COMPONENT_LEN_FIELD`. -/
def WATCH_COMPONENT_LEN_FIELD : Nat := 2

/-- A registry watch event kind. -/
inductive WatchEventType where
  | valueSet
  | valueDeleted
  | subkeyCreated
  | subkeyDeleted
  | securityDescriptorChanged
  | keyDeleted
  | overflow
  | other (raw : UInt16)
  deriving DecidableEq, Repr

/-- `WatchEventType::from_raw`, over the `REG_WATCH_*` codes. -/
def WatchEventType.fromRaw (raw : UInt16) : WatchEventType :=
  match raw.toNat with
  | 1 => valueSet
  | 2 => valueDeleted
  | 3 => subkeyCreated
  | 4 => subkeyDeleted
  | 5 => securityDescriptorChanged
  | 6 => keyDeleted
  | 7 => overflow
  | _ => other raw

/-- One raw registry watch event. -/
structure WatchEvent where
  /-- The event kind. -/
  eventType : WatchEventType
  /-- The changed value or subkey name, when carried by this event. -/
  name : Bytes
  /-- Subtree path components from the watched key to the changed key. -/
  path : List Bytes
  deriving DecidableEq, Repr

/-- `decode_watch_component`. -/
def decodeWatchComponent (bytes : Bytes) : Outcome Bytes := do
  reject (0 ∈ bytes) EINVAL
  return bytes

/-- The loop of `parse_watch_path` over the components: what is left of the extension, and the
path. -/
def parseWatchPath.loop : Nat → Bytes → List Bytes → Outcome (Bytes × List Bytes)
  | 0, extension, path => return (extension, path)
  | depth + 1, extension, path => do
    reject (extension.length < WATCH_COMPONENT_LEN_FIELD) EINVAL
    let len ← readLe extension 0 2
    let extension ← sliceFrom extension WATCH_COMPONENT_LEN_FIELD
    reject (extension.length < len) EINVAL
    let component ← decodeWatchComponent (← sliceTo extension len)
    parseWatchPath.loop depth (← sliceFrom extension len) (path ++ [component])

/-- `parse_watch_path`. -/
def parseWatchPath (extension : Bytes) : Outcome (List Bytes) :=
  if extension.isEmpty then return []
  else do
    reject (extension.length < SUBTREE_WATCH_EVENT_DEPTH_LEN) EINVAL
    let depth ← readLe extension 0 2
    let (extension, path) ←
      parseWatchPath.loop depth (← sliceFrom extension SUBTREE_WATCH_EVENT_DEPTH_LEN) []
    reject (¬ extension.isEmpty) EINVAL
    return path

/-- The record loop of `parse_watch_events`, for at most `fuel` rounds. -/
def parseWatchEvents.loop : Nat → Bytes → List WatchEvent → Outcome (List WatchEvent)
  | 0, _, _ => throw .fuel
  | fuel + 1, buffer, events =>
    if buffer.isEmpty then return events
    else do
      reject (buffer.length < WATCH_EVENT_MIN_SIZE) EINVAL
      let totalLen ← readLe buffer 0 4
      let eventType ← readLe buffer 4 2
      let nameLen ← readLe buffer 6 2
      reject (totalLen < WATCH_EVENT_MIN_SIZE ∨ totalLen > buffer.length) EINVAL
      let nameEnd := WATCH_EVENT_MIN_SIZE + nameLen
      reject (nameEnd > totalLen) EINVAL
      let record ← sliceTo buffer totalLen
      let name ← decodeWatchComponent (← slice record WATCH_EVENT_MIN_SIZE nameEnd)
      let path ← parseWatchPath (← sliceFrom record nameEnd)
      let event := { eventType := .fromRaw (.ofNat eventType), name, path }
      parseWatchEvents.loop fuel (← sliceFrom buffer totalLen) (events ++ [event])

/-- `parse_watch_events`. -/
def parseWatchEvents (buffer : Bytes) : Outcome (List WatchEvent) :=
  parseWatchEvents.loop (buffer.length + 1) buffer []

end Peios.Registry
