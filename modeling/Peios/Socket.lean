import Peios.Interaction.Prog
import Peios.Token.Token

/-!
# Messages on a socket

`send_message`, `recv_message` and `peer_pidfd` (`peios/src/socket.rs`), and `Token::open_peer`
(`peios/src/token.rs`), over the calls of libpeios.  Where a descriptor is expected and there is
none, libpeios has `-1`, so a descriptor is an integer here.  The two bits of a `MessageFlags` are
libpeios' own.
-/

namespace Peios.Socket

open Interaction

/-- `RawFd`. -/
abbrev RawFd := Int

/-- `PEIOS_SOCKET_MSG_TRUNCATED` and `PEIOS_SOCKET_MSG_CTRUNCATED`. -/
structure MessageFlags where
  TRUNCATED : UInt32
  CTRUNCATED : UInt32

/-- What `peios_socket_recv_message` leaves in its `peios_socket_message`. -/
structure MessageOut where
  tokenFd : RawFd
  fds : List RawFd
  fdCount : UInt32
  flags : UInt32

/-- A call of libpeios. -/
inductive SocketCall where
  /-- `peios_socket_send_message`; a token of `-1` is none. -/
  | sendMessage (sock : RawFd) (buf : Bytes) (token : RawFd) (fds : List RawFd) (count : UInt32)
      (flags : Int32)
  /-- `peios_socket_recv_message`, into a buffer and with room for descriptors. -/
  | recvMessage (sock : RawFd) (buf : Bytes) (fds : List RawFd) (fdCap : UInt32) (flags : Int32)
  /-- `peios_socket_peer_pidfd`. -/
  | peerPidfd (sock : RawFd)
  /-- `peios_token_open_peer`. -/
  | openPeer (conn : RawFd)

/-- What a call returns: the number of bytes, beside what it has filled, or a descriptor. -/
abbrev SocketReply : SocketCall → Type
  | .sendMessage .. => Except Errno Nat
  | .recvMessage .. => Except Errno (Nat × Bytes × MessageOut)
  | .peerPidfd _ => Except Errno RawFd
  | .openPeer _ => Except Errno RawFd

/-- A program over these calls. -/
abbrev SocketProg := Prog SocketCall SocketReply

/-- Make a call. -/
def onSocket (c : SocketCall) : SocketProg (SocketReply c) := .lift c

/-- What one received message carried. -/
structure ReceivedMessage where
  len : Nat
  /-- The descriptor of the token the kernel attached. -/
  token : Option RawFd
  fds : List RawFd
  /-- The data did not fit the buffer. -/
  truncated : Bool
  /-- Ancillary data did not fit. -/
  controlTruncated : Bool
  deriving DecidableEq

/-- `OwnedFd::from_raw_fd`. -/
def fromRawFd (fd : RawFd) : Outcome RawFd := if fd = -1 then throw .panic else return fd

/-- `send_message`. -/
def sendMessage (sock : RawFd) (buf : Bytes) (token : Option RawFd) (fds : List RawFd)
    (flags : Int32) : SocketProg (Except Errno Nat) :=
  if fds.length < 2 ^ 32 then
    onSocket (.sendMessage sock buf (token.getD (-1)) fds (.ofNat fds.length) flags)
  else return .error EINVAL

/-- What a message has left is owned from here on. -/
def MessageOut.received (K : MessageFlags) (msg : MessageOut) (len : Nat) :
    Outcome ReceivedMessage := do
  let token := if msg.tokenFd ≥ 0 then some msg.tokenFd else none
  let fds ← (msg.fds.take msg.fdCount.toNat).mapM fromRawFd
  return {
    len, token, fds
    truncated := msg.flags &&& K.TRUNCATED ≠ 0
    controlTruncated := msg.flags &&& K.CTRUNCATED ≠ 0 }

/-- `recv_message`, which leaves the buffer beside what it returns. -/
def recvMessage (K : MessageFlags) (sock : RawFd) (buf : Bytes) (maxFds : Nat) (flags : Int32) :
    SocketProg (Outcome (ReceivedMessage × Bytes)) :=
  if maxFds < 2 ^ 32 then do
    let r : Except Errno (Nat × Bytes × MessageOut) ←
      onSocket (.recvMessage sock buf (List.replicate maxFds (-1)) (.ofNat maxFds) flags)
    match r with
    | .error e => return .error (.errno e)
    | .ok (n, buf, msg) => return (msg.received K n).map fun m => (m, buf)
  else return .error (.errno EINVAL)

/-- `peer_pidfd`. -/
def peerPidfd (sock : RawFd) : SocketProg (Except Errno RawFd) := onSocket (.peerPidfd sock)

/-- `Token::open_peer`. -/
def openPeer (conn : RawFd) : SocketProg (Except Errno RawFd) := onSocket (.openPeer conn)

end Peios.Socket
