import Peios.Indexing
import Peios.Interaction.Monitor
import Peios.Slice
import Peios.Util

/-!
# Access-control lists

`AclBuilder`, `AclView`, `AceView` and `SidArrayView` (`peios/src/security/acl.rs`).  A view is what
libpeios' accessors answer about it; the builder is a program over the calls of `peios_acl_builder`.
-/

namespace Peios.Security

open Interaction

/-- A 16-byte GUID, as its bytes. -/
abbrev Guid := Vector UInt8 16

/-! ### ACE types -/

def KACS_ACE_TYPE_ACCESS_ALLOWED : UInt8 := 0x00
def KACS_ACE_TYPE_ACCESS_DENIED : UInt8 := 0x01
def KACS_ACE_TYPE_SYSTEM_AUDIT : UInt8 := 0x02
def KACS_ACE_TYPE_SYSTEM_MANDATORY_LABEL : UInt8 := 0x11
def KACS_ACE_TYPE_SYSTEM_RESOURCE_ATTRIBUTE : UInt8 := 0x12

/-- The type of an ACE. -/
inductive AceType where
  | accessAllowed
  | accessDenied
  | systemAudit
  | systemMandatoryLabel
  | systemResourceAttribute
  | other (v : UInt8)
  deriving DecidableEq, Repr

namespace AceType

/-- `AceType::to_raw`. -/
def toRaw : AceType → UInt8
  | accessAllowed => KACS_ACE_TYPE_ACCESS_ALLOWED
  | accessDenied => KACS_ACE_TYPE_ACCESS_DENIED
  | systemAudit => KACS_ACE_TYPE_SYSTEM_AUDIT
  | systemMandatoryLabel => KACS_ACE_TYPE_SYSTEM_MANDATORY_LABEL
  | systemResourceAttribute => KACS_ACE_TYPE_SYSTEM_RESOURCE_ATTRIBUTE
  | other v => v

/-- `AceType::from_raw`. -/
def fromRaw (v : UInt8) : AceType :=
  if v = KACS_ACE_TYPE_ACCESS_ALLOWED then accessAllowed
  else if v = KACS_ACE_TYPE_ACCESS_DENIED then accessDenied
  else if v = KACS_ACE_TYPE_SYSTEM_AUDIT then systemAudit
  else if v = KACS_ACE_TYPE_SYSTEM_MANDATORY_LABEL then systemMandatoryLabel
  else if v = KACS_ACE_TYPE_SYSTEM_RESOURCE_ATTRIBUTE then systemResourceAttribute
  else other v

/-- Every type byte is kept. -/
@[simp] theorem toRaw_fromRaw (v : UInt8) : (fromRaw v).toRaw = v := by
  unfold fromRaw
  split_ifs with h1 h2 h3 h4 h5
  · exact h1.symm
  · exact h2.symm
  · exact h3.symm
  · exact h4.symm
  · exact h5.symm
  · rfl

end AceType

/-! ### Views -/

/-- A parsed ACE: what each accessor of libpeios says of it.  One that fails or gives a null pointer
is `none`. -/
structure AceView where
  /-- `peios_ace_view_type`. -/
  rawType : UInt8
  /-- `peios_ace_view_flags`. -/
  rawFlags : UInt8
  /-- `peios_ace_view_mask`. -/
  rawMask : UInt32
  /-- `peios_ace_view_sid`. -/
  rawSid : Option Bytes
  /-- `peios_ace_view_object_type`. -/
  rawObjectType : Option Guid
  /-- `peios_ace_view_inherited_object_type`. -/
  rawInheritedObjectType : Option Guid
  /-- `peios_ace_view_app_data`. -/
  rawAppData : Option Bytes

namespace AceView

variable (a : AceView)

/-- `AceView::ace_type`. -/
def aceType : AceType := .fromRaw a.rawType
/-- `AceView::flags`: `from_bits_retain` keeps unknown bits. -/
def flags : UInt8 := a.rawFlags
/-- `AceView::mask`. -/
def mask : UInt32 := a.rawMask
/-- `AceView::sid`. -/
def sid : Option Bytes := a.rawSid
/-- `AceView::object_type`. -/
def objectType : Option Guid := a.rawObjectType
/-- `AceView::inherited_object_type`. -/
def inheritedObjectType : Option Guid := a.rawInheritedObjectType
/-- `AceView::app_data`. -/
def appData : Option Bytes := a.rawAppData

end AceView

/-- A parsed ACL. -/
structure AclView where
  /-- `peios_acl_view_count`. -/
  count : UInt32
  /-- `peios_acl_view_ace`, when it succeeds. -/
  rawAce : UInt32 → Option AceView

/-- `AclView::len`. -/
def AclView.len (v : AclView) : Nat := v.count.toNat

/-- `AclView::ace`, which casts its index to 32 bits. -/
def AclView.ace (v : AclView) (i : Nat) : Option AceView := v.rawAce (.ofNat i)

/-- `AclView::iter`. -/
def AclView.iter (v : AclView) : List AceView := iterate v.len v.ace

/-- A SID with attribute flags. -/
structure SidAndAttributes where
  sid : Bytes
  attributes : UInt32
  deriving DecidableEq

/-- A parsed array of SIDs. -/
structure SidArrayView where
  /-- `peios_sid_array_count`. -/
  count : UInt32
  /-- `peios_sid_array_get`, when it succeeds: the SID, or `none` for a null pointer, and the
  attributes. -/
  rawGet : UInt32 → Option (Option Bytes × UInt32)

/-- `SidArrayView::len`. -/
def SidArrayView.len (v : SidArrayView) : Nat := v.count.toNat

/-- `SidArrayView::get`, which casts its index to 32 bits. -/
def SidArrayView.get (v : SidArrayView) (i : Nat) : Option SidAndAttributes :=
  match v.rawGet (.ofNat i) with
  | some (some sid, attributes) => some { sid, attributes }
  | _ => none

/-- `SidArrayView::iter`. -/
def SidArrayView.iter (v : SidArrayView) : List SidAndAttributes := iterate v.len v.get

/-! ### The builder -/

/-- An ACE to be added. -/
structure Ace where
  aceType : AceType
  flags : UInt8
  mask : UInt32
  sid : Bytes
  objectType : Option Guid
  inheritedObjectType : Option Guid
  appData : Option Bytes
  deriving DecidableEq

/-- A `peios_ace_spec`. -/
structure AceSpec where
  type : UInt8
  flags : UInt8
  mask : UInt32
  sid : Bytes
  objectType : Option Guid
  inheritedObjectType : Option Guid
  appData : Option Bytes
  deriving DecidableEq

/-- A call on the builder. -/
inductive AclCall where
  /-- `peios_acl_builder_new`. -/
  | new
  /-- `peios_acl_builder_add`. -/
  | add (spec : AceSpec)
  /-- `peios_acl_builder_error`. -/
  | error
  /-- `peios_acl_builder_finish`. -/
  | finish (c : Util.BufCall)

/-- What a call returns: `new` whether there is a builder, `error` the latched `errno` or 0. -/
abbrev AclReply : AclCall → Type
  | .new => Bool
  | .add _ => Unit
  | .error => Errno
  | .finish c => Util.BufReply c

/-- A function over these calls. -/
abbrev AclProg := ExceptT Fault (Prog AclCall AclReply)

/-- Make a call. -/
def aclCall (c : AclCall) : AclProg (AclReply c) := ExceptT.lift (Prog.lift c)

namespace AclBuilder

/-- `AclBuilder::new`, which panics when there is no memory. -/
def new : AclProg Unit := do
  let made : Bool ← aclCall .new
  if made then return () else throw .panic

/-- What `AclBuilder::add` tells libpeios of an ACE. -/
def spec (ace : Ace) : AceSpec :=
  { type := ace.aceType.toRaw, flags := ace.flags, mask := ace.mask, sid := ace.sid,
    objectType := ace.objectType, inheritedObjectType := ace.inheritedObjectType,
    appData := ace.appData }

/-- `AclBuilder::add`. -/
def add (ace : Ace) : AclProg Unit := aclCall (.add (spec ace))

/-- `AclBuilder::build`. -/
def build : AclProg Bytes := do
  let err : Errno ← aclCall .error
  if err ≠ 0 then throw (.errno err)
  else interpE (fun c => .lift (AclCall.finish c)) Util.probe

end AclBuilder

/-! ### From a view back to an ACL -/

/-- What `AclView::to_acl` adds for the entry at `index`, if it can be read. -/
def AclView.entry (v : AclView) (index : Nat) : Option Ace := do
  let ace ← v.ace index
  let sid ← ace.sid
  return { aceType := ace.aceType, flags := ace.flags, mask := ace.mask, sid,
           objectType := ace.objectType, inheritedObjectType := ace.inheritedObjectType,
           appData := ace.appData }

/-- The body of the loop of `AclView::to_acl`. -/
def AclView.copyEntry (v : AclView) (index : Nat) : AclProg Unit :=
  match v.entry index with
  | none => throw (.errno EINVAL)
  | some ace => AclBuilder.add ace

/-- `AclView::to_acl`. -/
def AclView.toAcl (v : AclView) : AclProg Bytes := do
  AclBuilder.new
  forM (List.range v.len) v.copyEntry
  AclBuilder.build

end Peios.Security
