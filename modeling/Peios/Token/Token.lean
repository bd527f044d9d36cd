import Peios.Interaction.Prog
import Peios.Slice

/-!
# Tokens and impersonation

`Token::impersonate`, `impersonate_scoped`, `revert` and the guard `Impersonation`
(`peios/src/token.rs`), over the two calls that change a thread's identity.
-/

namespace Peios

open Interaction

/-- A token: its file descriptor. -/
structure Token where
  fd : Nat
  deriving DecidableEq, Repr

namespace Token

/-- A call that changes the identity of the calling thread. -/
inductive ThreadCall where
  /-- `peios_token_impersonate`. -/
  | impersonate (fd : Nat)
  /-- `peios_token_revert`. -/
  | revert
  deriving DecidableEq, Repr

/-- What a call returns, through `check`. -/
abbrev ThreadReply (_ : ThreadCall) : Type := Except Errno Unit

/-- A function over these calls. -/
abbrev ThreadProg := Prog ThreadCall ThreadReply

/-- `Impersonation`: a guard that reverts when it is dropped. -/
structure Impersonation where
  active : Bool
  deriving DecidableEq, Repr

/-- `Token::impersonate`. -/
def impersonate (t : Token) : ThreadProg (Except Errno Unit) := .lift (.impersonate t.fd)

/-- `Token::impersonate_scoped`. -/
def impersonateScoped (t : Token) : ThreadProg (Except Errno Impersonation) := do
  match ← t.impersonate with
  | .error e => return .error e
  | .ok () => return .ok { active := true }

/-- `Token::revert`. -/
def revert : ThreadProg (Except Errno Unit) := .lift .revert

namespace Impersonation

/-- `Impersonation::drop`. -/
def drop (guard : Impersonation) : ThreadProg Unit := do
  if guard.active then
    let _ ← Token.revert
  else return ()

/-- `Impersonation::revert`, which takes the guard, so that it is dropped at the end. -/
def revert (guard : Impersonation) : ThreadProg (Except Errno Unit) := do
  let guard := { guard with active := false }
  let r ← Token.revert
  guard.drop
  return r

end Impersonation

end Token

end Peios
