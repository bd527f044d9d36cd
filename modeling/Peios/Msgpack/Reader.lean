import Peios.Bytes.Utf8
import Peios.Interaction.Prog
import Peios.Slice

/-!
# Reading MessagePack

`Reader` (`peios/src/msgpack.rs`): a cursor over a buffer.  The cursor is libpeios', behind the
calls `peios_mp_read_…`; a method makes one of them and checks what it returns.  `read_str`,
`read_bin` and `read_ext` have checks of their own, after the value has been read.
-/

namespace Peios.Msgpack

open Interaction ByteString

/-- A call that reads a value, `peios_mp_read_…` or `peios_mp_skip`. -/
inductive ReadCall where
  | nil
  | bool
  | int
  | uint
  | float
  | str
  | bin
  | array
  | map
  | ext
  | skip
  deriving DecidableEq, Repr

/-- What such a call gives when it succeeds.  A pointer to bytes can be null, and a `f64` is its
bits. -/
abbrev ReadCall.Value : ReadCall → Type
  | nil => Unit
  | bool => Bool
  | int => Int64
  | uint => UInt64
  | float => UInt64
  | str => Option Bytes
  | bin => Option Bytes
  | array => Nat
  | map => Nat
  | ext => Int8 × Option Bytes
  | skip => Unit

/-- A call on the cursor. -/
inductive ReaderCall where
  /-- `peios_mp_reader_init`. -/
  | init (buf : Bytes)
  /-- `peios_mp_reader_remaining`. -/
  | remaining
  | read (c : ReadCall)
  deriving DecidableEq

/-- What it returns. -/
abbrev ReaderReply : ReaderCall → Type
  | .init _ => Unit
  | .remaining => Nat
  | .read c => Except Errno c.Value

/-- A function over these calls. -/
abbrev ReaderProg := ExceptT Fault (Prog ReaderCall ReaderReply)

/-- Make a call. -/
def readerCall (c : ReaderCall) : ReaderProg (ReaderReply c) := ExceptT.lift (Prog.lift c)

namespace Reader

/-- `check` or `check_len` of a call that reads. -/
def read (c : ReadCall) : ReaderProg c.Value := do
  let r : Except Errno c.Value ← readerCall (.read c)
  ExceptT.mk (pure (ofResult r))

/-- A pointer to bytes, unless it is null. -/
def nonNull : Option Bytes → Outcome Bytes
  | none => throw (.errno EINVAL)
  | some bytes => pure bytes

/-- `core::str::from_utf8`, with `EINVAL` for other bytes. -/
def utf8Of (bytes : Bytes) : Outcome String :=
  match fromUtf8 bytes with
  | none => throw (.errno EINVAL)
  | some s => pure s

/-- `Reader::new`. -/
def new (buf : Bytes) : ReaderProg Unit := readerCall (.init buf)

/-- `Reader::remaining`. -/
def remaining : ReaderProg Nat := readerCall .remaining

/-- `Reader::read_nil`. -/
def readNil : ReaderProg Unit := read .nil

/-- `Reader::read_bool`. -/
def readBool : ReaderProg Bool := read .bool

/-- `Reader::read_int`. -/
def readInt : ReaderProg Int64 := read .int

/-- `Reader::read_uint`. -/
def readUint : ReaderProg UInt64 := read .uint

/-- `Reader::read_float`. -/
def readFloat : ReaderProg UInt64 := read .float

/-- `Reader::read_str`. -/
def readStr : ReaderProg String := do
  let out ← read .str
  let bytes ← ExceptT.mk (pure (nonNull out))
  ExceptT.mk (pure (utf8Of bytes))

/-- `Reader::read_bin`. -/
def readBin : ReaderProg Bytes := do
  let out ← read .bin
  ExceptT.mk (pure (nonNull out))

/-- `Reader::read_array`. -/
def readArray : ReaderProg Nat := read .array

/-- `Reader::read_map`. -/
def readMap : ReaderProg Nat := read .map

/-- `Reader::read_ext`. -/
def readExt : ReaderProg (Int8 × Bytes) := do
  let (ty, out) ← read .ext
  let bytes ← ExceptT.mk (pure (nonNull out))
  return (ty, bytes)

/-- `Reader::skip`. -/
def skip : ReaderProg Unit := read .skip

end Reader

end Peios.Msgpack
