import Peios.Bytes.Utf8
import Peios.Interaction.Prog
import Peios.Slice

/-!
# Emitting events

`emit` and `emit_batch` (`peios/src/event.rs`), over the two calls of libpeios that emit.  Lengths
that do not fit the widths of the calls are refused before anything is emitted.

On failure the call for a batch says in `emitted` how many entries it emitted before the one that
failed.  `emit_batch` returns the error, and not that.
-/

namespace Peios.Event

open Interaction ByteString

/-- `EmitEntry`. -/
structure EmitEntry where
  eventType : String
  payload : Bytes
  deriving DecidableEq

/-- A `peios_event_entry`: the bytes that libpeios is told of. -/
structure EventEntry where
  eventType : Bytes
  payload : Bytes
  deriving DecidableEq

/-- A call that emits. -/
inductive EmitCall where
  /-- `peios_event_emit`. -/
  | emit (entry : EventEntry)
  /-- `peios_event_emit_batch`. -/
  | emitBatch (entries : List EventEntry)
  deriving DecidableEq

/-- What a call returns; for a batch with `emitted` beside it. -/
abbrev EmitReply : EmitCall → Type
  | .emit _ => Except Errno Unit
  | .emitBatch _ => UInt32 × Except Errno Unit

/-- A function over these calls. -/
abbrev EmitProg := ExceptT Fault (Prog EmitCall EmitReply)

/-- Make a call. -/
def emitCall (c : EmitCall) : EmitProg (EmitReply c) := ExceptT.lift (Prog.lift c)

/-- `try_from` to an integer of `w` bits, with `EINVAL` for what does not fit. -/
def tryFrom (w n : Nat) : Outcome Nat := if n < 2 ^ w then pure n else throw (.errno EINVAL)

/-- `event_lengths`. -/
def eventLengths (typeLen payloadLen : Nat) : Outcome (Nat × Nat) := do
  let typeLen ← tryFrom 16 typeLen
  let payloadLen ← tryFrom 32 payloadLen
  return (typeLen, payloadLen)

/-- An entry as libpeios is passed it. -/
def EmitEntry.raw (entry : EmitEntry) : Outcome EventEntry := do
  let (typeLen, payloadLen) ← eventLengths (utf8 entry.eventType).length entry.payload.length
  return { eventType := (utf8 entry.eventType).take typeLen
           payload := entry.payload.take payloadLen }

/-- `emit`. -/
def emit (eventType : String) (payload : Bytes) : EmitProg Unit := do
  let entry ← ExceptT.mk (pure { eventType, payload : EmitEntry }.raw)
  let r : Except Errno Unit ← emitCall (.emit entry)
  ExceptT.mk (pure (ofResult r))

/-- `emit_batch`. -/
def emitBatch (entries : List EmitEntry) : EmitProg Nat := do
  let count ← ExceptT.mk (pure (tryFrom 32 entries.length))
  let raw ← ExceptT.mk (pure (entries.mapM EmitEntry.raw))
  let reply : UInt32 × Except Errno Unit ← emitCall (.emitBatch (raw.take count))
  match reply.2 with
  | .ok () => return reply.1.toNat
  | .error e => throw (.errno e)

end Peios.Event
