import Peios.Interaction.Triple
import Peios.KernelInputs.Snapshot

/-!
# Installing style tools

`installBinary` (`tools/prepare-style-tools.py`) puts one tool of a lock in a directory, where it is
not already there: it downloads an archive, takes the executable out of it, writes that beside its
destination and renames it.  `installAll` is the loop of `main` over the lock.  They are programs
over what they ask of the directory and the network; reading an archive is the parameter `tar`.
-/

namespace StyleTools

open Python FileTree Interaction KernelInputs

/-- What a tool of the lock is described by. -/
abbrev Tool := Dict Str Json.Value

/-- An exception. -/
inductive InstallError where
  /-- `KeyError`: the lock does not say. -/
  | key (name : Str)
  /-- `…: download URL must use HTTPS` -/
  | notHttps (name : Str)
  /-- `…: archive checksum mismatch` -/
  | archiveMismatch (name : Str)
  /-- `…: executable missing from archive` -/
  | executableMissing (name : Str)
  /-- `…: executable checksum mismatch` -/
  | executableMismatch (name : Str)
  /-- What the system, the network or an archive raises, and an interruption. -/
  | raised
deriving DecidableEq

/-- What the program asks for, of the entries of the directory. -/
inductive Call where
  /-- `path.is_file()`. -/
  | isFile (k : Component)
  | readBytes (k : Component)
  /-- `urlopen(url).read()`. -/
  | fetch (url : Str)
  | writeBytes (k : Component) (b : List UInt8)
  | chmod (k : Component) (mode : Nat)
  /-- `path.replace(target)`. -/
  | replace (source target : Component)

/-- What calls return. -/
abbrev Value : Call → Type
  | .isFile _ => Bool
  | .readBytes _ => List UInt8
  | .fetch _ => List UInt8
  | _ => Unit

/-- What calls are answered with. -/
abbrev Reply (c : Call) : Type := Except InstallError (Value c)

/-- A part of the program. -/
abbrev Installer := ExceptT InstallError (Prog Call Reply)

/-- Make a call. -/
def request (c : Call) : Installer (Value c) := ExceptT.mk (.lift c)

/-- What has been computed. -/
def computed {α : Type} (x : Except InstallError α) : Installer α := ExceptT.mk (.ret x)

/-- `bundle.extractfile(member)` of an archive, read: none if the member is not a file. -/
abbrev Tar := List UInt8 → Json.Value → Except InstallError (Option (List UInt8))

/-- `entry[name]`. -/
def Tool.field (entry : Tool) (name : String) : Except InstallError Json.Value :=
  orRaise (entry.get? (lit name)) (.key (lit name))

/-- The URL of a tool. -/
def httpsUrl (name : Component) (url : Json.Value) : Except InstallError Str :=
  orRaise (url.string?.filter fun url => (lit "https://").isPrefixOf url) (.notHttps name.1)

/-- `destination.with_suffix(".new")`. -/
def temporaryOf (name : Component) : Component :=
  ⟨withSuffix name.1 (lit ".new"), isComponent_withSuffix name.2 (by decide) (by decide)⟩

variable (sha256 : Sha256) (tar : Tar)

/-- The file is the one that the lock describes: `destination.is_file() and digest(…) == …`. -/
def isInstalled (name : Component) (entry : Tool) : Installer Bool := do
  if ← request (.isFile name) then
    let content ← request (.readBytes name)
    let expected ← computed (entry.field "binary_sha256")
    return expected.string? = some (sha256.hexdigest content)
  else return false

/-- The member of an archive, or all of it where there is none. -/
def memberOf (name : Component) (archive : List UInt8) :
    Json.Value → Except InstallError (List UInt8)
  | .null => return archive
  | member => do orRaise (← tar archive member) (.executableMissing name.1)

/-- The executable that is in an archive, if both are those that the lock describes. -/
def executableOf (name : Component) (entry : Tool) (archive : List UInt8) :
    Except InstallError (List UInt8) := do
  if (← entry.field "sha256").string? ≠ some (sha256.hexdigest archive) then
    throw (.archiveMismatch name.1)
  let executable ← memberOf tar name archive (← entry.field "member")
  if (← entry.field "binary_sha256").string? ≠ some (sha256.hexdigest executable) then
    throw (.executableMismatch name.1)
  return executable

/-- Verify both the archive and executable before publishing the selected tool. -/
def installBinary (name : Component) (entry : Tool) : Installer Unit := do
  if ← isInstalled sha256 name entry then return ()
  let url ← computed (entry.field "url" >>= httpsUrl name)
  let archive ← request (.fetch url)
  let executable ← computed (executableOf sha256 tar name entry archive)
  request (.writeBytes (temporaryOf name) executable)
  request (.chmod (temporaryOf name) 0o755)
  request (.replace (temporaryOf name) name)

/-- Every tool of the lock. -/
def installAll (lock : Dict Component Tool) : Installer Unit :=
  lock.items.forM fun i => installBinary sha256 tar i.1 i.2

end StyleTools
