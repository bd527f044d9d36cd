import Peios.Registry.Key
import Peios.Util

/-!
# All values of a key

The two ways to read every value of a key (`peios/src/registry.rs`): `Key::query_values_batch`, one
call whose buffer `parse_value_records` decodes, and the iterator `Key::values`, a call of
`Key::enum_value` for each.

The decoder walks its buffer by a position; `usize` has 64 bits, and every addition to the position
is written with what it does when it overflows.
-/

namespace Peios.Registry

open Interaction ByteString

/-! ### The batch -/

/-- One value of a key, as `query_values_batch` returns it. -/
structure ValueRecord where
  name : Bytes
  ty : ValueType
  data : Bytes
  deriving DecidableEq, Repr

/-- `size_of::<ValueRecord>()`: two vectors and a `u32`, padded. -/
def ValueRecord.SIZE : Nat := 56

/-- `Vec::with_capacity(n)` for elements of `size` bytes, which panics when they cannot fit. -/
def withCapacity (size n : Nat) : Outcome Unit :=
  if size * n ≤ Util.isizeMax then pure () else throw .panic

/-- `pos += n`, which panics when it overflows. -/
def addAssign (pos n : Nat) : Outcome Nat :=
  if pos + n < 2 ^ 64 then pure (pos + n) else throw .panic

/-- `pos.checked_add(n)`. -/
def checkedAdd (pos n : Nat) : Option Nat :=
  if pos + n < 2 ^ 64 then some (pos + n) else none

/-- `pos.checked_add(n).filter(|&e| e <= buf.len())`, or `EINVAL`. -/
def endOf (buf : Bytes) (pos n : Nat) : Outcome Nat :=
  match (checkedAdd pos n).filter (· ≤ buf.length) with
  | some e => pure e
  | none => throw (.errno EINVAL)

/-- `read_u32`. -/
def readU32 (buf : Bytes) (pos : Nat) : Outcome Nat := do
  let e ← endOf buf pos 4
  return ofLeBytes (← slice buf pos e)

/-- `read_u32(buf, pos)?; pos += 4`. -/
def nextU32 (buf : Bytes) (pos : Nat) : Outcome (Nat × Nat) := do
  let v ← readU32 buf pos
  return (v, ← addAssign pos 4)

/-- The bytes up to `end`, which comes `len` after `pos`; `pos = end`. -/
def nextBytes (buf : Bytes) (len pos : Nat) : Outcome (Bytes × Nat) := do
  let e ← endOf buf pos len
  return (← slice buf pos e, e)

/-- The body of the loop of `parse_value_records`. -/
def parseValueRecord (buf : Bytes) (pos : Nat) : Outcome (ValueRecord × Nat) := do
  let (nameLen, pos) ← nextU32 buf pos
  let (name, pos) ← nextBytes buf nameLen pos
  let (ty, pos) ← nextU32 buf pos
  let (dataLen, pos) ← nextU32 buf pos
  let (data, pos) ← nextBytes buf dataLen pos
  return ({ name, ty := ⟨.ofNat ty⟩, data }, pos)

/-- The loop of `parse_value_records`, for `count` more records. -/
def parseValueRecords.loop (buf : Bytes) :
    Nat → List ValueRecord → Nat → Outcome (List ValueRecord × Nat)
  | 0, out, pos => return (out, pos)
  | count + 1, out, pos => do
    let (record, pos) ← parseValueRecord buf pos
    parseValueRecords.loop buf count (out ++ [record]) pos

/-- `parse_value_records`. -/
def parseValueRecords (buf : Bytes) (count : Nat) : Outcome (List ValueRecord) := do
  withCapacity ValueRecord.SIZE count
  let (out, _) ← parseValueRecords.loop buf count [] 0
  return out

/-- A function over the calls of libpeios that can panic. -/
abbrev RegOutcome := ExceptT Fault RegProg

/-- The probe of `Key::query_values_batch` may fail with `ERANGE`, for it has no buffer. -/
def acceptProbe : Option Errno → RegOutcome Unit
  | none => pure ()
  | some e => if e = ERANGE then pure () else throw (.errno e)

/-- `Key::query_values_batch`. -/
def Key.queryValuesBatch (key : Key) (txn : Option Transaction) :
    RegOutcome (List ValueRecord) := do
  let probe : WindowReply 1 UInt32 ← ExceptT.lift (sys (.queryValuesBatch key txn fun _ => []))
  acceptProbe probe.errno
  let buf ← Util.zeroed probe.len.toNat
  let v : WindowReply 1 UInt32 ← ExceptT.lift (sys (.queryValuesBatch key txn fun _ => buf))
  match v.errno with
  | some e => throw (.errno e)
  | none => ExceptT.mk (pure (parseValueRecords v.filled v.fields.toNat))

/-! ### The iterator -/

/-- `Values`: an iterator over a key's effective values. -/
structure Values where
  key : Key
  txn : Option Transaction
  index : UInt32
  done : Bool

/-- `Key::values`. -/
def Key.values (key : Key) (txn : Option Transaction) : Values :=
  { key, txn, index := 0, done := false }

/-- `self.index += 1`, which panics when it overflows. -/
def Values.advance (it : Values) : KeyProg Values :=
  if it.index.toNat + 1 < 2 ^ 32 then return { it with index := it.index + 1 } else throw .panic

/-- `Values::next`. -/
def Values.next (it : Values) : KeyProg (Option (Except Errno EnumValue) × Values) := do
  if it.done then return (none, it)
  match ← (KeyCall.enumValue it.key it.index it.txn).attempt with
  | .ok (some v) => return (some (.ok v), ← it.advance)
  | .ok none => return (none, { it with done := true })
  | .error e => return (some (.error e), { it with done := true })

/-- What `n` calls of `next` return, one after another. -/
def Values.nexts : Nat → Values → KeyProg (List (Option (Except Errno EnumValue)))
  | 0, _ => return []
  | n + 1, it => do
    let (v, it) ← it.next
    return v :: (← it.nexts n)

/-- `collect::<Result<Vec<_>>>()`, for at most `rounds` calls of `next`. -/
def Values.collect : Nat → Values → List EnumValue → KeyProg (List EnumValue)
  | 0, _, _ => throw .fuel
  | rounds + 1, it, values => do
    match ← it.next with
    | (none, _) => return values
    | (some (.ok v), it) => it.collect rounds (values ++ [v])
    | (some (.error e), _) => KeyProg.err e

end Peios.Registry
