import Peios.Interaction.Prog
import Peios.Registry.Call
import Peios.Registry.Watch

/-!
# Reading watch records from a key

The descriptor of a key that watches have been armed on is read like a file:
`Key::read_watch_events` (`peios/src/registry.rs`), as a program over the calls it makes.
-/

namespace Peios.Registry

open Interaction

/-- A call on the descriptor of a key. -/
inductive WatchCall where
  /-- `read`, into a buffer. -/
  | read (key : Fd) (buffer : Bytes)

/-- What a call returns.  `read` returns how many bytes it has written, and the buffer. -/
abbrev WatchReply : WatchCall → Type
  | .read .. => Except Errno (Nat × Bytes)

/-- A program over these calls. -/
abbrev WatchProg := Prog WatchCall WatchReply

/-- Make a call. -/
def onKey (c : WatchCall) : WatchProg (WatchReply c) := .lift c

/-- `Key::read_watch_events`. -/
def Key.readWatchEvents (key : Fd) (buffer : Bytes) : WatchProg (Outcome (List WatchEvent)) :=
  if buffer.isEmpty then return .error (.errno EINVAL)
  else do
    let n : Except Errno (Nat × Bytes) ← onKey (.read key buffer)
    match n with
    -- `ErrorKind::WouldBlock`
    | .error e => return if e = EAGAIN then .ok [] else .error (.errno e)
    | .ok (n, buffer) => return sliceTo buffer n >>= parseWatchEvents

end Peios.Registry
