import Peios.Interaction.Prog
import Peios.Registry.Call
import Peios.Security.Acl
import Peios.Security.Sid
import Peios.Token.Token

/-!
# Token specs

`TokenBuilder` (`peios/src/token.rs`): a program over the calls of `peios_token_builder`.  The
builder's own state is in libpeios; Rust keeps one error beside it, `pending`.

A `Part` is what one setter of libpeios is passed.  A pointer and a count are the entries the callee
is told of.
-/

namespace Peios.Token

open Interaction ByteString
open Security (SidLib SidRef Sid Guid)
open Registry (CString)

/-! ### What a spec is made of -/

/-- `TokenType`. -/
inductive TokenType where
  | primary
  | impersonation
  deriving DecidableEq, Repr

/-- `TokenType::to_raw`. -/
def TokenType.toRaw : TokenType → UInt8
  | primary => 1
  | impersonation => 2

/-- `ImpersonationLevel`. -/
inductive ImpersonationLevel where
  | anonymous
  | identification
  | impersonation
  | delegation
  deriving DecidableEq, Repr

/-- `ImpersonationLevel::to_raw`. -/
def ImpersonationLevel.toRaw : ImpersonationLevel → UInt8
  | anonymous => 0
  | identification => 1
  | impersonation => 2
  | delegation => 3

/-- `TokenFlags`, and `peios_token_flags` with the same fields. -/
structure TokenFlags where
  writeRestricted : Bool
  userDenyOnly : Bool
  isolationBoundary : Bool
  confinementExempt : Bool
  deriving DecidableEq, Repr

/-- `ClaimValues`. -/
inductive ClaimValues where
  | int64 (values : List Int64)
  | uint64 (values : List UInt64)
  | boolean (values : List Bool)
  | string (values : List String)
  | sid (values : List Sid)
  | octet (values : List Bytes)

/-- A `peios_token_claim_value`. -/
structure ClaimValue where
  scalar : UInt64
  bytes : Option Bytes
  deriving DecidableEq

namespace ClaimValues

/-- `ClaimValues::value_type`. -/
def valueType : ClaimValues → UInt16
  | int64 _ => 1
  | uint64 _ => 2
  | boolean _ => 6
  | string _ => 3
  | sid _ => 5
  | octet _ => 16

/-- `scalar`. -/
def scalar (s : UInt64) : ClaimValue := { scalar := s, bytes := none }

/-- `bytes`. -/
def bytes (b : Bytes) : ClaimValue := { scalar := 0, bytes := some b }

/-- `ClaimValues::to_ffi`. -/
def toFfi : ClaimValues → List ClaimValue
  | int64 v => v.map fun x => scalar x.toUInt64
  | uint64 v => v.map scalar
  | boolean v => v.map fun x => scalar x.toUInt64
  | string v => v.map fun s => bytes (utf8 s)
  | sid v => v.map fun s => bytes s.asBytes
  | octet v => v.map bytes

end ClaimValues

/-- `Claim`. -/
structure Claim where
  name : String
  flags : UInt32
  values : ClaimValues

/-- `LcsCredentials`. -/
structure LcsCredentials where
  scopeGuids : List Guid
  privateLayers : List String

/-- A `peios_token_claim`. -/
structure TokenClaim where
  name : Bytes
  valueType : UInt16
  flags : UInt32
  values : List ClaimValue
  deriving DecidableEq

/-- A `peios_token_lcs_credentials`. -/
structure TokenLcsCredentials where
  scopes : List Guid
  privateLayers : List Bytes
  deriving DecidableEq

/-- `SOURCE_NAME_LEN`. -/
def SOURCE_NAME_LEN : Nat := 8

/-- What a setter of libpeios is passed. -/
inductive Part where
  | user (sid : Bytes)
  | addGroup (sid : Bytes) (attrs : UInt32)
  | privileges (present enabled : UInt64)
  | type (type impLevel : UInt8)
  | integrity (rid : UInt32)
  | session (id : UInt64)
  | ownerIndex (index : UInt32)
  | primaryGroupIndex (index : UInt32)
  | defaultDacl (acl : Bytes)
  | flags (flags : TokenFlags)
  | projectedIds (uid gid : UInt32)
  | suppGids (gids : List UInt32)
  | mandatoryPolicy (policy : UInt32)
  | auditPolicy (policy : UInt32)
  | expiration (time : UInt64)
  | source (name : Vector UInt8 SOURCE_NAME_LEN) (sourceId : UInt64)
  | addRestrictedSid (sid : Bytes) (attrs : UInt32)
  | addDeviceGroup (sid : Bytes) (attrs : UInt32)
  | confinement (sid : Bytes)
  | addUserClaim (claim : TokenClaim)
  | addDeviceClaim (claim : TokenClaim)
  | lcsCredentials (creds : TokenLcsCredentials)
  deriving DecidableEq

/-! ### The builder -/

/-- A call on the builder. -/
inductive BuilderCall where
  /-- `peios_token_builder_new`. -/
  | new
  /-- `peios_token_builder_reset`. -/
  | reset
  /-- One of the setters. -/
  | set (part : Part)
  /-- `peios_token_builder_error`. -/
  | error
  /-- `peios_token_builder_bytes`. -/
  | bytes
  /-- `peios_token_builder_create`. -/
  | create
  deriving DecidableEq

/-- What a call returns: `new` whether there is a builder, `error` the latched `errno` or 0, and
`bytes` a pointer that can be null. -/
abbrev BuilderReply : BuilderCall → Type
  | .new => Bool
  | .reset => Unit
  | .set _ => Unit
  | .error => Errno
  | .bytes => Except Errno (Option Bytes)
  | .create => Except Errno Nat

/-- A function over these calls. -/
abbrev BuilderProg := ExceptT Fault (Prog BuilderCall BuilderReply)

/-- Make a call. -/
def builderCall (c : BuilderCall) : BuilderProg (BuilderReply c) := ExceptT.lift (Prog.lift c)

/-- `TokenBuilder`: the error found in Rust, or 0. -/
structure TokenBuilder where
  pending : Errno
  deriving DecidableEq, Repr

namespace TokenBuilder

/-- `TokenBuilder::new`, which panics when there is no memory. -/
def new : BuilderProg TokenBuilder := do
  let made : Bool ← builderCall .new
  if made then return { pending := 0 } else throw .panic

/-- `TokenBuilder::latch`. -/
def latch (b : TokenBuilder) (errno : Errno) : TokenBuilder :=
  if b.pending = 0 then { b with pending := errno } else b

/-- `TokenBuilder::reset`. -/
def reset (b : TokenBuilder) : BuilderProg TokenBuilder := do
  let b := { b with pending := 0 }
  builderCall .reset
  return b

variable (b : TokenBuilder)

/-- The call of a setter of libpeios, whose result nobody reads. -/
def set (part : Part) : BuilderProg TokenBuilder := do
  builderCall (.set part)
  return b

variable {lib : SidLib}

/-- `TokenBuilder::user`. -/
def user (sid : SidRef lib) : BuilderProg TokenBuilder := b.set (.user sid.bytes)

/-- `TokenBuilder::add_group`. -/
def addGroup (sid : SidRef lib) (attrs : UInt32) : BuilderProg TokenBuilder :=
  b.set (.addGroup sid.bytes attrs)

/-- `TokenBuilder::privileges`. -/
def privileges (present enabled : UInt64) : BuilderProg TokenBuilder :=
  b.set (.privileges present enabled)

/-- `TokenBuilder::token_type`. -/
def tokenType (ty : TokenType) (impLevel : ImpersonationLevel) : BuilderProg TokenBuilder :=
  b.set (.type ty.toRaw impLevel.toRaw)

/-- `TokenBuilder::integrity`, with the level's `rid`. -/
def integrity (level : UInt32) : BuilderProg TokenBuilder := b.set (.integrity level)

/-- `TokenBuilder::session`. -/
def session (session : UInt64) : BuilderProg TokenBuilder := b.set (.session session)

/-- `TokenBuilder::owner_index`. -/
def ownerIndex (index : UInt32) : BuilderProg TokenBuilder := b.set (.ownerIndex index)

/-- `TokenBuilder::primary_group_index`. -/
def primaryGroupIndex (index : UInt32) : BuilderProg TokenBuilder :=
  b.set (.primaryGroupIndex index)

/-- `TokenBuilder::default_dacl`. -/
def defaultDacl (acl : Bytes) : BuilderProg TokenBuilder := b.set (.defaultDacl acl)

/-- `TokenBuilder::flags`. -/
def flags (flags : TokenFlags) : BuilderProg TokenBuilder := b.set (.flags flags)

/-- `TokenBuilder::projected_ids`. -/
def projectedIds (uid gid : UInt32) : BuilderProg TokenBuilder := b.set (.projectedIds uid gid)

/-- `TokenBuilder::supplementary_gids`. -/
def supplementaryGids (gids : List UInt32) : BuilderProg TokenBuilder :=
  b.set (.suppGids (entriesU32 gids))

/-- `TokenBuilder::mandatory_policy`. -/
def mandatoryPolicy (policy : UInt32) : BuilderProg TokenBuilder := b.set (.mandatoryPolicy policy)

/-- `TokenBuilder::audit_policy`. -/
def auditPolicy (policy : UInt32) : BuilderProg TokenBuilder := b.set (.auditPolicy policy)

/-- `TokenBuilder::expiration`. -/
def expiration (time : UInt64) : BuilderProg TokenBuilder := b.set (.expiration time)

/-- The zero-padded buffer of `TokenBuilder::source`, with as much of the name as it holds. -/
def sourceField (name : Bytes) : Vector UInt8 SOURCE_NAME_LEN :=
  Vector.ofFn fun i => name.getD i.val 0

/-- `TokenBuilder::source`. -/
def source (name : String) (sourceId : UInt64) : BuilderProg TokenBuilder :=
  if SOURCE_NAME_LEN < (utf8 name).length then return b.latch EINVAL
  else b.set (.source (sourceField (utf8 name)) sourceId)

/-- `TokenBuilder::add_restricted_sid`. -/
def addRestrictedSid (sid : SidRef lib) (attrs : UInt32) : BuilderProg TokenBuilder :=
  b.set (.addRestrictedSid sid.bytes attrs)

/-- `TokenBuilder::add_device_group`. -/
def addDeviceGroup (sid : SidRef lib) (attrs : UInt32) : BuilderProg TokenBuilder :=
  b.set (.addDeviceGroup sid.bytes attrs)

/-- `TokenBuilder::confinement`. -/
def confinement (sid : SidRef lib) : BuilderProg TokenBuilder := b.set (.confinement sid.bytes)

/-- `TokenBuilder::with_claim`, with the part that `f` passes. -/
def withClaim (claim : Claim) (f : TokenClaim → Part) : BuilderProg TokenBuilder :=
  match CString.new claim.name with
  | .error _ => return b.latch EINVAL
  | .ok name =>
    b.set (f
      { name := name.bytes, valueType := claim.values.valueType, flags := claim.flags,
        values := entriesU32 claim.values.toFfi })

/-- `TokenBuilder::add_user_claim`. -/
def addUserClaim (claim : Claim) : BuilderProg TokenBuilder := b.withClaim claim .addUserClaim

/-- `TokenBuilder::add_device_claim`. -/
def addDeviceClaim (claim : Claim) : BuilderProg TokenBuilder := b.withClaim claim .addDeviceClaim

/-- `TokenBuilder::lcs_credentials`. -/
def lcsCredentials (creds : LcsCredentials) : BuilderProg TokenBuilder :=
  match creds.privateLayers.mapM CString.new with
  | .error _ => return b.latch EINVAL
  | .ok layers =>
    b.set (.lcsCredentials
      { scopes := entriesU32 creds.scopeGuids
        privateLayers := entriesU32 (layers.map CString.bytes) })

/-- `TokenBuilder::error`. -/
def error : BuilderProg Unit :=
  if b.pending ≠ 0 then throw (.errno b.pending)
  else do
    let e : Errno ← builderCall .error
    if e = 0 then return () else throw (.errno e)

/-- `TokenBuilder::to_bytes`. -/
def toBytes : BuilderProg Bytes := do
  b.error
  let r : Except Errno (Option Bytes) ← builderCall .bytes
  match r with
  | .error e => throw (.errno e)
  | .ok none => throw (.errno EINVAL)
  | .ok (some bytes) => return bytes

/-- `TokenBuilder::create`. -/
def create : BuilderProg Token := do
  b.error
  let r : Except Errno Nat ← builderCall .create
  match r with
  | .error e => throw (.errno e)
  | .ok fd => return { fd }

end TokenBuilder

end Peios.Token
