import Peios.Registry.Data
import Peios.Util
import Mathlib.Data.Fin.VecNotation

/-!
# The registry calls of libpeios

`RegCall` has a constructor for each C function of libpeios the registry module calls, with the
arguments it passes, and `RegReply` says what comes back.  A call that fills output windows is
passed the buffers themselves, whose lengths are the capacities; its reply is a `WindowReply`.

The rest is what the crate does to arguments on the way: `CString.new`, `bytes_u32`, `opt_layer`.
-/

namespace Peios.Registry

open ByteString

/-- A file descriptor. -/
abbrev Fd := Nat

/-! ### Flags -/

/-- `KeyAccess::QUERY_VALUE`. -/
def KeyAccess.QUERY_VALUE : UInt32 := 1
/-- `KeyAccess::SET_VALUE`. -/
def KeyAccess.SET_VALUE : UInt32 := 2
/-- `KeyAccess::CREATE_SUB_KEY`. -/
def KeyAccess.CREATE_SUB_KEY : UInt32 := 4
/-- `KeyAccess::ENUMERATE_SUB_KEYS`. -/
def KeyAccess.ENUMERATE_SUB_KEYS : UInt32 := 8
/-- `KeyAccess::DELETE`. -/
def KeyAccess.DELETE : UInt32 := 0x10000

/-- `OpenFlags::OPEN_LINK`: open a symlink key itself rather than following it. -/
def OpenFlags.OPEN_LINK : UInt32 := 1

/-- `REG_OPENED_EXISTING`. -/
def REG_OPENED_EXISTING : UInt32 := 2

/-! ### Arguments -/

/-- A string without NULs, as a C function can be given it. -/
structure CString where
  bytes : Bytes
  no_nul : 0 ∉ bytes
  deriving DecidableEq

/-- `CString::new(s).map_err(|_| Error::from_raw_os_error(EINVAL))`. -/
def CString.new (s : String) : Except Errno CString :=
  if h : 0 ∈ utf8 s then .error EINVAL else .ok ⟨utf8 s, h⟩

/-- `bytes_u32`: what the callee reads of a slice passed as a pointer and a `len() as u32`. -/
def bytesU32 (b : Bytes) : Bytes := b.take (b.length % 2 ^ 32)

/-- `opt_layer`: the layer name the callee reads, or none for the base layer. -/
def optLayer (layer : Option String) : Option Bytes := layer.map fun l => bytesU32 (utf8 l)

/-! ### Calls and replies -/

/-- A call of libpeios. -/
inductive RegCall where
  /-- `peios_reg_begin_transaction`. -/
  | beginTransaction
  /-- `peios_reg_commit`. -/
  | commit (txn : Fd)
  /-- `peios_reg_open_key`; a parent of `-1` is none. -/
  | openKey (parent : Option Fd) (path : CString) (access flags : UInt32)
  /-- `peios_reg_create_key`. -/
  | createKey (parent : Option Fd) (path : CString) (access flags : UInt32)
      (layer : Option CString) (txn : Option Fd)
  /-- `peios_reg_query_value`, with the windows `data` and `layer`. -/
  | queryValue (key : Fd) (name : Bytes) (txn : Option Fd) (windows : Fin 2 → Bytes)
  /-- `peios_reg_query_values_batch`, with the window `buf`. -/
  | queryValuesBatch (key : Fd) (txn : Option Fd) (windows : Fin 1 → Bytes)
  /-- `peios_reg_enum_value`, with the windows `name` and `data`. -/
  | enumValue (key : Fd) (index : UInt32) (txn : Option Fd) (windows : Fin 2 → Bytes)
  /-- `peios_reg_enum_subkey`, with the window `name`. -/
  | enumSubkey (key : Fd) (index : UInt32) (txn : Option Fd) (windows : Fin 1 → Bytes)
  /-- `peios_reg_query_key_info`, with the window `name`. -/
  | queryKeyInfo (key : Fd) (windows : Fin 1 → Bytes)
  /-- `peios_reg_set_value`. -/
  | setValue (key : Fd) (name : Bytes) (ty : ValueType) (data : Bytes) (layer : Option Bytes)
      (txn : Option Fd) (expectedSeq : UInt64)
  /-- `peios_reg_delete_value`. -/
  | deleteValue (key : Fd) (name : Bytes) (layer : Option Bytes) (txn : Option Fd)
  /-- `peios_reg_blanket_tombstone`. -/
  | blanketTombstone (key : Fd) (layer : Option Bytes) (set : Bool) (txn : Option Fd)
  /-- `peios_reg_delete_key`. -/
  | deleteKey (key : Fd) (layer : Option Bytes) (txn : Option Fd)
  /-- `peios_reg_hide_key`. -/
  | hideKey (key : Fd) (layer : Option Bytes) (txn : Option Fd)
  /-- `peios_reg_get_security`, with no buffer or with one. -/
  | getSecurity (key : Fd) (secinfo : UInt32) (out : Util.BufCall)

/-- What a call with `n` output windows reports: an `errno` when it fails, the length each window
needs, the buffers, and the other fields of its descriptor. -/
structure WindowReply (n : Nat) (α : Type) where
  errno : Option Errno
  lens : Fin n → UInt32
  windows : Fin n → Bytes
  fields : α

/-- The other fields of a `peios_reg_value`. -/
structure ValueFields where
  sequence : UInt64
  ty : ValueType
  deriving DecidableEq

/-- The other fields of a `peios_reg_subkey`. -/
structure SubkeyFields where
  lastWriteTime : UInt64
  subkeyCount : UInt32
  valueCount : UInt32
  deriving DecidableEq

/-- The other fields of a `peios_reg_key_info`. -/
structure KeyInfoFields where
  lastWriteTime : UInt64
  hiveGeneration : UInt64
  subkeyCount : UInt32
  valueCount : UInt32
  maxSubkeyNameLen : UInt32
  maxValueNameLen : UInt32
  maxValueDataSize : UInt32
  sdSize : UInt32
  volatileKey : UInt32
  symlink : UInt32
  deriving DecidableEq

/-- What a call returns.  The field beside the window of `peios_reg_query_values_batch` is the
number of records. -/
abbrev RegReply : RegCall → Type
  | .beginTransaction => Except Errno Fd
  | .commit _ => Except Errno Unit
  | .openKey .. => Except Errno Fd
  | .createKey .. => Except Errno (Fd × UInt32)
  | .queryValue .. => WindowReply 2 ValueFields
  | .queryValuesBatch .. => WindowReply 1 UInt32
  | .enumValue .. => WindowReply 2 ValueType
  | .enumSubkey .. => WindowReply 1 SubkeyFields
  | .queryKeyInfo .. => WindowReply 1 KeyInfoFields
  | .setValue .. => Except Errno Unit
  | .deleteValue .. => Except Errno Unit
  | .blanketTombstone .. => Except Errno Unit
  | .deleteKey .. => Except Errno Unit
  | .hideKey .. => Except Errno Unit
  | .getSecurity .. => WindowReply 1 Unit

/-- What a call that fails returns, when it writes nothing. -/
def RegReply.failed (e : Errno) : (c : RegCall) → RegReply c
  | .beginTransaction | .commit _ | .openKey .. | .createKey .. | .setValue .. | .deleteValue ..
  | .blanketTombstone .. | .deleteKey .. | .hideKey .. => .error e
  | .queryValue _ _ _ w => ⟨some e, fun _ => 0, w, { sequence := 0, ty := .NONE }⟩
  | .queryValuesBatch _ _ w => ⟨some e, fun _ => 0, w, 0⟩
  | .enumValue _ _ _ w => ⟨some e, fun _ => 0, w, .NONE⟩
  | .enumSubkey _ _ _ w =>
    ⟨some e, fun _ => 0, w, { lastWriteTime := 0, subkeyCount := 0, valueCount := 0 }⟩
  | .queryKeyInfo _ w => ⟨some e, fun _ => 0, w, ⟨0, 0, 0, 0, 0, 0, 0, 0, 0, 0⟩⟩
  | .getSecurity _ _ out => ⟨some e, fun _ => 0, fun _ => out.bytes, ()⟩

end Peios.Registry
