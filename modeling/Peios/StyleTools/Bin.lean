import Peios.StyleTools.Install

/-!
# What the installer runs against

A `Bin` is what the entries of the directory of tools are.  Every link leads out of it, to a place
that no other entry leads to and nothing else changes; a special file cannot be opened.  `reliable`
does what it is asked for.  In a `World` any call may break: it raises an error, before or after its
effect, and what was being written is left with any content; and the network may answer every
download differently.
-/

namespace StyleTools

open Python FileTree Interaction

/-- A regular file, which may be writable. -/
structure Regular extends File where
  writable : Bool
deriving DecidableEq

/-- What a link leads to. -/
inductive Target where
  | file (f : Regular)
  /-- Nothing: a write creates a file there, where one can be created. -/
  | missing (creatable : Bool)
  /-- What is not a regular file. -/
  | other
deriving DecidableEq

/-- What an entry is. -/
inductive Item where
  | file (f : Regular)
  | link (target : Target)
  | directory
  | special
deriving DecidableEq

/-- What is read of a file, if there is one. -/
def contentOf (o : Option Regular) : Except InstallError (List UInt8) :=
  match o.filter fun f => f.readable with
  | some f => .ok f.content
  | none => .error .raised

/-- The entries of the directory. -/
abbrev Bin := Component → Option Item

/-- The file that an entry is or leads to. -/
def fileOf : Option Item → Option Regular
  | some (.file f) => some f
  | some (.link (.file f)) => some f
  | _ => none

theorem contentOf_eq_ok {o : Option Regular} {content : List UInt8} :
    contentOf o = .ok content ↔ ∃ f, o = some f ∧ f.readable = true ∧ f.content = content := by
  cases o with
  | none => simp [contentOf]
  | some f =>
    cases hreadable : f.readable with
    | false => simp [contentOf, Option.filter, hreadable]
    | true => simp [contentOf, Option.filter, hreadable]

namespace Bin

/-- With something else at an entry. -/
def set (bin : Bin) (k : Component) (o : Option Item) : Bin := fun j => if j = k then o else bin j

variable {bin : Bin} {j k : Component} {o : Option Item}

@[simp] theorem set_self : bin.set k o k = o := if_pos rfl

theorem set_of_ne (h : j ≠ k) : bin.set k o j = bin j := if_neg h

/-- A file that is created. -/
def created : Regular := { content := [], mode := 0o644, readable := true, writable := true }

/-- The entry with its file changed. -/
def modify (bin : Bin) (k : Component) (f : Regular → Regular) : Option Bin :=
  match bin k with
  | some (.file old) => some (bin.set k (some (.file (f old))))
  | some (.link (.file old)) => some (bin.set k (some (.link (.file (f old)))))
  | _ => none

/-- The entry with another content of its file, which is created where there is none. -/
def write (bin : Bin) (k : Component) (content : List UInt8) : Option Bin :=
  match bin k with
  | none => some (bin.set k (some (.file { created with content })))
  | some (.link (.missing true)) => some (bin.set k (some (.link (.file { created with content }))))
  | _ =>
    if (fileOf (bin k)).any Regular.writable then bin.modify k fun f => { f with content } else none

/-- `rename(2)`, of an entry that is no directory. -/
def rename (bin : Bin) (source target : Component) : Option Bin :=
  match bin source with
  | none => none
  | some .directory => none
  | some item =>
    if bin target = some .directory then none
    else some ((bin.set source none).set target (some item))

end Bin

/-- An operation that may raise an error, and then has no effect. -/
def attempt (bin : Bin) (o : Option Bin) : Except InstallError Unit × Bin :=
  match o with
  | some bin => (.ok (), bin)
  | none => (.error .raised, bin)

/-- What the network answers. -/
abbrev Network := Str → Except InstallError (List UInt8)

/-- Calls do what they are for; a mode with the owner's read or write bit makes a file readable or
writable. -/
def reliable (net : Network) : Handler Call Reply Bin
  | .isFile k, bin => (.ok (fileOf (bin k)).isSome, bin)
  | .readBytes k, bin => (contentOf (fileOf (bin k)), bin)
  | .fetch url, bin => (net url, bin)
  | .writeBytes k b, bin => attempt bin (bin.write k b)
  | .chmod k mode, bin =>
    attempt bin <| bin.modify k fun f =>
      { f with mode, readable := f.readable || mode.testBit 8
               writable := f.writable || mode.testBit 7 }
  | .replace source target, bin =>
    attempt bin <|
      if source = target then (bin source).map fun _ => bin else bin.rename source target

/-- How a call breaks: what it raises, whether it has had its effect, and what a write leaves. -/
structure Break where
  error : InstallError
  happened : Bool
  left : List UInt8

/-- The network at each call, and which calls break. -/
structure World where
  net : Nat → Network
  breaks : Nat → Option Break

/-- What a call that breaks leaves behind. -/
def broken (net : Network) (b : Break) (c : Call) (bin : Bin) : Bin :=
  if b.happened then
    match c with
    | .writeBytes k _ => (attempt bin (bin.write k b.left)).2
    | c => (reliable net c bin).2
  else bin

/-- The `n`-th call breaks as the world says, if it does. -/
def World.handler (world : World) : Handler Call Reply (Nat × Bin) := fun c s =>
  match world.breaks s.1 with
  | none =>
    ((reliable (world.net s.1) c s.2).1, s.1 + 1, (reliable (world.net s.1) c s.2).2)
  | some b => (.error b.error, s.1 + 1, broken (world.net s.1) b c s.2)

end StyleTools
