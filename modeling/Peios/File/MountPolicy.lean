import Peios.Util

/-!
# Reading a mount policy

`File::mount_get_policy` (`peios/src/file.rs`).  A call of `peios_mount_get_policy` fills the three
scalar fields of a descriptor and, into the buffer it is given, the template.  The method asks with
no buffer, and if there is a template reads again with one, making it larger when a call says it is
too small, four times at most.
-/

namespace Peios.File

open Interaction Util

/-- `MountPolicy`. -/
structure MountPolicy where
  kind : UInt32
  flags : UInt32
  generation : UInt32
  templateSd : Option (List UInt8)
  deriving DecidableEq

/-- A `peios_mount_policy` as a call leaves it. -/
structure PolicyOut where
  policy : UInt32
  flags : UInt32
  generation : UInt32
  /-- `template_sd.is_null()`. -/
  templateSdIsNull : Bool
  templateSdLen : Nat

/-- What a call leaves: its `errno` if it fails, the descriptor and the buffer. -/
structure PolicyReply where
  errno : Option Errno
  out : PolicyOut
  buf : List UInt8

/-- A program over the calls of `peios_mount_get_policy`. -/
abbrev PolicyProg := ExceptT Fault (Prog BufCall fun _ => PolicyReply)

/-- `peios_mount_get_policy`. -/
def getPolicy (c : BufCall) : PolicyProg PolicyReply :=
  ExceptT.mk (Except.ok <$> (Prog.lift c : Prog BufCall (fun _ => PolicyReply) PolicyReply))

/-- The reads with a buffer: `rounds` more of them, with a buffer of `cap` bytes first.  They return
the descriptor to go by, `out` if none of them got a template, and the template. -/
def readTemplate (out : PolicyOut) : Nat → Nat → PolicyProg (PolicyOut × Option (List UInt8))
  | 0, _ => return (out, none)
  | rounds + 1, cap => do
    let buf ← zeroed cap
    let r ← getPolicy (.buf buf)
    match r.errno with
    | none =>
      if r.out.templateSdIsNull ∨ r.out.templateSdLen = 0 then return (out, none)
      else return (r.out, some (r.buf.take r.out.templateSdLen))
    | some e =>
      if e = ERANGE then readTemplate out rounds (max r.out.templateSdLen (cap + 1))
      else throw (.errno e)

/-- The policy a descriptor and a template make. -/
def MountPolicy.ofOut (out : PolicyOut) (template : Option (List UInt8)) : MountPolicy :=
  { kind := out.policy, flags := out.flags, generation := out.generation, templateSd := template }

/-- `File::mount_get_policy`. -/
def mountGetPolicy : PolicyProg MountPolicy := do
  let r ← getPolicy .null
  match r.errno with
  | some e => throw (.errno e)
  | none =>
    if r.out.templateSdLen = 0 then return .ofOut r.out none
    else
      let (out, template) ← readTemplate r.out 4 r.out.templateSdLen
      return .ofOut out template

end Peios.File
