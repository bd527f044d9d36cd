import Peios.Security.Sid

/-!
# Access checks

`AccessCheck` and its two terminal calls (`peios/src/access.rs`).  A request is the record libpeios
is passed; its object tree is what the callee is told of, a pointer and a `u32` count.
-/

namespace Peios.Access

open Interaction Security

/-- `EACCES`: the errno that reports a denial. -/
def EACCES : Errno := 13

/-- A `kacs_generic_mapping`. -/
structure GenericMapping where
  read : UInt32
  write : UInt32
  execute : UInt32
  all : UInt32
  deriving DecidableEq

/-- A `kacs_object_type_entry`: one node of an object-type tree. -/
structure ObjectTypeEntry where
  level : UInt16
  guid : Bytes
  deriving DecidableEq

/-- A `kacs_node_result`. -/
structure NodeResult where
  granted : UInt32
  status : Int32
  deriving DecidableEq

/-- `AccessDecision`. -/
structure AccessDecision where
  allowed : Bool
  granted : UInt32
  deriving DecidableEq

/-- `AccessCheck`. -/
structure AccessCheck (lib : SidLib) where
  token : Option Nat
  sd : Bytes
  desired : UInt32
  mapping : GenericMapping
  selfSid : Option (SidRef lib)
  privilegeIntent : UInt32
  auditContext : Option Bytes

/-- A `peios_access_request`.  The fields that are always null or zero are left out. -/
structure AccessRequest where
  tokenFd : Option Nat
  sd : Bytes
  desired : UInt32
  mapping : GenericMapping
  selfSid : Option Bytes
  privilegeIntent : UInt32
  objectTree : List ObjectTypeEntry
  auditContext : Option Bytes
  deriving DecidableEq

/-- A call of libpeios that checks access. -/
inductive AccessCall where
  /-- `peios_access_check`. -/
  | check (req : AccessRequest)
  /-- `peios_access_check_list`, with the buffer `results`, of which the callee is told `count`
  entries. -/
  | checkList (req : AccessRequest) (results : List NodeResult) (count : UInt32)
  deriving DecidableEq

/-- What a call returns.  A check leaves a granted mask also when it fails; the list variant leaves
its buffer filled. -/
abbrev AccessReply : AccessCall → Type
  | .check _ => Option Errno × UInt32
  | .checkList .. => Except Errno (List NodeResult)

/-- A program over these calls. -/
abbrev AccessProg := Prog AccessCall AccessReply

namespace AccessCheck

variable {lib : SidLib}

/-- `AccessCheck::new`. -/
def new (sd : Bytes) (desired : UInt32) (mapping : GenericMapping) : AccessCheck lib :=
  { token := none, sd, desired, mapping, selfSid := none, privilegeIntent := 0,
    auditContext := none }

variable (a : AccessCheck lib)

/-- `build_request`. -/
def buildRequest (objectTree : List ObjectTypeEntry) : AccessRequest :=
  { tokenFd := a.token, sd := a.sd, desired := a.desired, mapping := a.mapping,
    selfSid := a.selfSid.map SidRef.bytes, privilegeIntent := a.privilegeIntent, objectTree,
    auditContext := a.auditContext }

/-- `AccessCheck::check`. -/
def check : AccessProg (Except Errno AccessDecision) := do
  let r : Option Errno × UInt32 ← .lift (AccessCall.check (a.buildRequest []))
  match r.1 with
  | none => return .ok { allowed := true, granted := r.2 }
  | some e =>
    if e = EACCES then return .ok { allowed := false, granted := r.2 } else return .error e

/-- `AccessCheck::check_list`.  The vector of results has an entry for every node of the slice, and
the callee is told of `object_tree.len() as u32` of them. -/
def checkList (objectTree : List ObjectTypeEntry) : AccessProg (Except Errno (List NodeResult)) :=
  let count : UInt32 := .ofNat objectTree.length
  let results : List NodeResult := .replicate objectTree.length { granted := 0, status := 0 }
  .lift (AccessCall.checkList (a.buildRequest (entriesU32 objectTree)) results count)

end AccessCheck

end Peios.Access
