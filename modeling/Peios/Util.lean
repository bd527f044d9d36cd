import Peios.Bytes.Utf8
import Peios.Error
import Peios.Interaction.Prog

/-!
# Size probes

`probe` and `probe_str` (`peios/src/util.rs`) read an object whose size is not known: they ask for
the size, allocate, and fill, and ask again when a fill finds the buffer too small, four times at
most.  They differ in the byte `probe_str` leaves room for and in what they make of the bytes read,
the arguments `slack` and `finish` of `probeWith`.

Both take the libpeios call as a closure of a pointer and a capacity.  A `BufCall` is what it is
given and a `BufReply` what it returns: the `ssize_t` when that is not negative, with the buffer
as the call left it, and the `errno` otherwise.  A buffer no vector can have panics.
-/

namespace Peios.Util

open Interaction ByteString

/-- The buffer a libpeios call is given: a null pointer and capacity 0, or a buffer. -/
inductive BufCall where
  | null
  | buf (b : List UInt8)
  deriving DecidableEq

/-- The bytes of the buffer. -/
def BufCall.bytes : BufCall → List UInt8
  | null => []
  | buf b => b

/-- What the call returns. -/
abbrev BufReply (_ : BufCall) : Type := Except Errno (Nat × List UInt8)

/-- A function over such a call. -/
abbrev BufProg := ExceptT Fault (Prog BufCall BufReply)

/-- `isize::MAX` on a 64-bit target. -/
def isizeMax : Nat := 0x7fffffffffffffff

/-- `vec![0u8; n]`. -/
def zeroed {C : Type} {R : C → Type} (n : Nat) : ExceptT Fault (Prog C R) (List UInt8) :=
  if n ≤ isizeMax then return List.replicate n 0 else throw .panic

/-- `check_len(f(ptr::null_mut(), 0))?`. -/
def askSize : BufProg Nat :=
  ExceptT.mk ((fun r => ofResult (r.map Prod.fst)) <$> (Prog.lift .null : Prog _ BufReply _))

/-- `f(buf.as_mut_ptr(), buf.len())`. -/
def fill (b : List UInt8) : BufProg (BufReply (.buf b)) :=
  ExceptT.mk (Except.ok <$> (Prog.lift (.buf b) : Prog _ BufReply _))

section

variable {β : Type} (slack : Nat) (finish : List UInt8 → Outcome β)

/-- The rounds of a probe, with the size it was last told. -/
def probeWith.loop : Nat → Nat → BufProg β
  | 0, _ => throw (.errno ERANGE)
  | rounds + 1, cap => do
    let buf ← zeroed (cap + slack)
    match ← fill buf with
    | .ok (ret, buf) => ExceptT.mk (pure (finish (buf.take ret)))
    | .error e =>
      if e = ERANGE then
        let cap ← askSize
        probeWith.loop rounds cap
      else throw (.errno e)

/-- A size probe that leaves room for `slack` more bytes and returns what `finish` makes of the
bytes read. -/
def probeWith : BufProg β := do
  let cap ← askSize
  probeWith.loop slack finish 4 cap

end

/-- `probe`. -/
def probe : BufProg (List UInt8) := probeWith 0 .ok

/-- `String::from_utf8(buf).map_err(|_| Error::from_raw_os_error(EINVAL))`. -/
def decodeUtf8 (b : List UInt8) : Outcome String :=
  match fromUtf8 b with
  | some s => .ok s
  | none => .error (.errno EINVAL)

/-- `probe_str`. -/
def probeStr : BufProg String := probeWith 1 decodeUtf8

end Peios.Util
