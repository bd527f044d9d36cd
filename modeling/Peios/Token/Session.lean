import Peios.Bytes.Utf8
import Peios.Registry.Call
import Peios.Security.Sid

/-!
# Logon sessions

`Session` and `LogonType` (`peios/src/token.rs`).  `Session::list` reads the kernel's listing
through a reader that is closed when it is dropped: at the end, on the way out of an error, and
when making a `SystemTime` panics.  Its loop takes its number of rounds as an argument.
-/

namespace Peios.Token

open Interaction Security ByteString

/-- The kind of a logon session. -/
inductive LogonType where
  | interactive
  | network
  | batch
  | service
  | networkCleartext
  | newCredentials
  | remoteInteractive
  deriving DecidableEq

/-- `LogonType::to_raw`: a `KACS_LOGON_TYPE_*`. -/
def LogonType.toRaw : LogonType → UInt8
  | interactive => 2
  | network => 3
  | batch => 4
  | service => 5
  | networkCleartext => 8
  | newCredentials => 9
  | remoteInteractive => 10

/-- `peios_logon_session`: what the kernel says of a session. -/
structure RawSession where
  logonSessionId : UInt64
  userSid : Bytes
  logonType : UInt32
  authPackage : Bytes
  /-- In seconds since the Unix epoch. -/
  createdAt : UInt64
  deriving DecidableEq

/-- `peios_session_spec`: what a session is created with. -/
structure SessionSpec where
  logonType : UInt8
  authPackage : Registry.CString
  userSid : Bytes

/-- A call of libpeios. -/
inductive SessionCall where
  /-- `peios_session_create`. -/
  | create (spec : SessionSpec)
  /-- `peios_session_destroy_empty`. -/
  | destroyEmpty (session : UInt64)
  /-- `peios_logon_sessions_open`. -/
  | openSessions
  /-- `peios_logon_sessions_next`. -/
  | next (reader : Nat)
  /-- `peios_logon_sessions_close`. -/
  | close (reader : Nat)

/-- What a call returns. -/
abbrev SessionReply : SessionCall → Type
  | .create _ => Except Errno UInt64
  | .destroyEmpty _ => Except Errno Unit
  | .openSessions => Except Errno Nat
  | .next _ => Except Errno (Option RawSession)
  | .close _ => Unit

/-- A program over these calls. -/
abbrev SessionProg := Prog SessionCall SessionReply

/-- Make a call. -/
def onSessions (c : SessionCall) : SessionProg (SessionReply c) := .lift c

variable {lib : SidLib}

/-- `Session::create`. -/
def Session.create (logonType : LogonType) (authPackage : String) (userSid : SidRef lib) :
    SessionProg (Except Errno UInt64) :=
  match Registry.CString.new authPackage with
  | .error e => return .error e
  | .ok pkg =>
    onSessions (.create {
      logonType := logonType.toRaw, authPackage := pkg, userSid := userSid.bytes })

/-- `Session::destroy_empty`. -/
def Session.destroyEmpty (session : UInt64) : SessionProg (Except Errno Unit) :=
  onSessions (.destroyEmpty session)

/-! ### Listing -/

/-- One live logon session. -/
structure LogonSessionInfo where
  id : UInt64
  user : Sid
  /-- The raw `KACS_LOGON_TYPE_*`. -/
  logonType : UInt32
  authPackage : String
  /-- A `SystemTime`, in seconds since the Unix epoch. -/
  createdAt : Nat
  deriving DecidableEq

/-- `UNIX_EPOCH + Duration::from_secs(secs)`, which panics where an `i64` cannot hold it. -/
def sinceEpoch (secs : UInt64) : Outcome Nat :=
  if secs.toNat < 2 ^ 63 then return secs.toNat else throw .panic

variable (lib)

/-- What is pushed for a session. -/
def RawSession.info (raw : RawSession) : Outcome LogonSessionInfo := do
  match SidRef.fromBytes lib raw.userSid with
  | none => throw (.errno EPROTO)
  | some sid =>
    let user ← Sid.fromRef sid
    let createdAt ← sinceEpoch raw.createdAt
    return {
      id := raw.logonSessionId
      user
      logonType := raw.logonType
      authPackage := fromUtf8Lossy raw.authPackage
      createdAt }

/-- The loop of `Session::list`, for at most `rounds` sessions. -/
def Session.list.loop (reader : Nat) :
    Nat → List LogonSessionInfo → SessionProg (Outcome (List LogonSessionInfo))
  | 0, _ => return .error .fuel
  | rounds + 1, sessions => do
    let raw : Except Errno (Option RawSession) ← onSessions (.next reader)
    match raw with
    | .error e => return .error (.errno e)
    | .ok none => return .ok sessions
    | .ok (some raw) =>
      match raw.info lib with
      | .error e => return .error e
      | .ok info => Session.list.loop reader rounds (sessions ++ [info])

/-- `Session::list`. -/
def Session.list (rounds : Nat) : SessionProg (Outcome (List LogonSessionInfo)) := do
  let reader : Except Errno Nat ← onSessions .openSessions
  match reader with
  | .error e => return .error (.errno e)
  | .ok reader =>
    let sessions ← Session.list.loop lib reader rounds []
    -- `Reader::drop`
    let _ ← onSessions (.close reader)
    return sessions

end Peios.Token
