import Peios.Event.Emit
import Peios.Interaction.Monitor

/-!
# The emission policy

`EventPolicy` (`peios/src/event.rs`).  `enabled` asks libpeios whether events of a type are switched
on, and `emit_with` emits one if they are.  The payload comes from a closure of the caller's, which
is a call here, since whether it is made matters.
-/

namespace Peios.Event

open Interaction ByteString

/-- `Tier`. -/
inductive Tier where
  | essential
  | standard
  | verbose
  | debug
  deriving DecidableEq, Repr

/-- A call of `emit_with`. -/
inductive PolicyCall where
  /-- `peios_event_policy_enabled`. -/
  | enabled (eventType : Bytes) (tier : Tier)
  /-- The closure that builds the payload. -/
  | build
  /-- A call of `emit`. -/
  | emitting (c : EmitCall)
  deriving DecidableEq

/-- What a call returns; for `enabled` with the value of `errno` beside it. -/
abbrev PolicyReply : PolicyCall → Type
  | .enabled _ _ => Int32 × Errno
  | .build => Bytes
  | .emitting c => EmitReply c

/-- A function over these calls. -/
abbrev PolicyProg := ExceptT Fault (Prog PolicyCall PolicyReply)

/-- Make a call. -/
def policyCall (c : PolicyCall) : PolicyProg (PolicyReply c) := ExceptT.lift (Prog.lift c)

namespace EventPolicy

/-- What `enabled` makes of the answer. -/
def decided (r : Int32 × Errno) : Outcome Bool :=
  if r.1 = 1 then .ok true else if r.1 = 0 then .ok false else .error (.errno r.2)

/-- `EventPolicy::enabled`. -/
def enabled (eventType : String) (tier : Tier) : PolicyProg Bool := do
  let len ← ExceptT.mk (pure (tryFrom 16 (utf8 eventType).length))
  let r : Int32 × Errno ← policyCall (.enabled ((utf8 eventType).take len) tier)
  ExceptT.mk (pure (decided r))

/-- `EventPolicy::emit_with`. -/
def emitWith (eventType : String) (tier : Tier) : PolicyProg Bool := do
  if ¬ (← enabled eventType tier) then return false
  let payload : Bytes ← policyCall .build
  interpE (fun c => .lift (.emitting c)) (emit eventType payload)
  return true

end EventPolicy

end Peios.Event
