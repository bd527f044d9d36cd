import Peios.Bytes.Pieces
import Peios.Bytes.Utf8
import Peios.Slice

/-!
# Value data, decoded by its type

`Data` and its codec (`peios/src/registry/data.rs`).  The kernel keeps a value's bytes beside a
type tag and does not check that the two fit; `Data.decode` reads the bytes as the tag says, or
leaves them `Data.raw`, and `Data.encode` writes them.
-/

namespace Peios.Registry

open ByteString

/-- A registry value type: a `REG_*` code. -/
structure ValueType where
  raw : UInt32
  deriving DecidableEq, Repr

namespace ValueType

def NONE : ValueType := ⟨0⟩
def SZ : ValueType := ⟨1⟩
def EXPAND_SZ : ValueType := ⟨2⟩
def BINARY : ValueType := ⟨3⟩
def DWORD : ValueType := ⟨4⟩
def DWORD_BIG_ENDIAN : ValueType := ⟨5⟩
def LINK : ValueType := ⟨6⟩
def MULTI_SZ : ValueType := ⟨7⟩
def QWORD : ValueType := ⟨11⟩

end ValueType

/-- A value's data, decoded by its type. -/
inductive Data where
  /-- `REG_NONE` with no bytes. -/
  | none
  /-- `REG_SZ`. -/
  | sz (s : String)
  /-- `REG_EXPAND_SZ`. -/
  | expandSz (s : String)
  /-- `REG_LINK`: a link's target path. -/
  | link (target : String)
  /-- `REG_MULTI_SZ`. -/
  | multiSz (list : List String)
  /-- `REG_DWORD`. -/
  | dword (n : UInt32)
  /-- `REG_DWORD_BIG_ENDIAN`. -/
  | dwordBigEndian (n : UInt32)
  /-- `REG_QWORD`. -/
  | qword (n : UInt64)
  /-- `REG_BINARY`. -/
  | binary (bytes : Bytes)
  /-- Bytes that do not decode as their type says, or of a type with no decoding. -/
  | raw (ty : ValueType) (bytes : Bytes)
  deriving DecidableEq, Repr

/-- `Iterator::rposition`: where the last element that `p` accepts stands. -/
def rposition (p : UInt8 → Bool) (bytes : Bytes) : Option Nat :=
  (bytes.reverse.findIdx? p).map (bytes.length - 1 - ·)

/-- Where a string's text ends: after the last byte that is not a NUL. -/
def textEnd (bytes : Bytes) : Nat := (rposition (· ≠ 0) bytes).elim 0 (· + 1)

/-- `string`: a string's bytes without their terminating NULs, if they are UTF-8 with no NUL
inside. -/
def string (bytes : Bytes) : Option String := do
  let text ← fromUtf8 (bytes.take (textEnd bytes))
  if '\x00' ∈ text.toList then Option.none else some text

/-- `strings`: a list's strings, if every one is UTF-8. -/
def strings (bytes : Bytes) : Option (List String) :=
  (pieces 0 bytes).mapM fromUtf8

namespace Data

/-- `Data::decode`. -/
def decode (ty : ValueType) (bytes : Bytes) : Data :=
  let raw := Data.raw ty bytes
  if ty = .NONE ∧ bytes.isEmpty then .none
  else if ty = .SZ then (string bytes).elim raw .sz
  else if ty = .EXPAND_SZ then (string bytes).elim raw .expandSz
  else if ty = .LINK then
    ((fromUtf8 bytes).filter fun target => '\x00' ∉ target.toList).elim raw .link
  else if ty = .MULTI_SZ then (strings bytes).elim raw .multiSz
  else if ty = .DWORD then
    if bytes.length = 4 then .dword (.ofNat (ofLeBytes bytes)) else raw
  else if ty = .DWORD_BIG_ENDIAN then
    if bytes.length = 4 then .dwordBigEndian (.ofNat (ofLeBytes bytes.reverse)) else raw
  else if ty = .QWORD then
    if bytes.length = 8 then .qword (.ofNat (ofLeBytes bytes)) else raw
  else if ty = .BINARY then .binary bytes
  else raw

/-- `Data::ty`. -/
def ty : Data → ValueType
  | .none => .NONE
  | .sz _ => .SZ
  | .expandSz _ => .EXPAND_SZ
  | .link _ => .LINK
  | .multiSz _ => .MULTI_SZ
  | .dword _ => .DWORD
  | .dwordBigEndian _ => .DWORD_BIG_ENDIAN
  | .qword _ => .QWORD
  | .binary _ => .BINARY
  | .raw ty _ => ty

/-- `Data::encode`. -/
def encode : Data → Bytes
  | .none => []
  | .sz s | .expandSz s => utf8 s ++ [0]
  | .link target => utf8 target
  | .multiSz list => terminate 0 (list.map utf8) ++ [0]
  | .dword n => leBytes 4 n.toNat
  | .dwordBigEndian n => (leBytes 4 n.toNat).reverse
  | .qword n => leBytes 8 n.toNat
  | .binary bytes | .raw _ bytes => bytes

end Data

end Peios.Registry
