import Peios.Interaction.Prog
import Peios.Python.PurePath
import Peios.Python.Walk

/-!
# Checking style

`sources` (`tools/style-check.py`) lists the files of the repository that are maintained, and `main`
checks them, or with `--fix` changes them: first that the tools are those that are pinned, and then
one tool after another, each with the files of its language.  It is a program over the commands that
it runs.
-/

namespace StyleCheck

open Python FileTree Interaction

/-! ### Sources -/

/-- The directories that are not gone into. -/
def EXCLUDED : List Str :=
  [".git", ".gcsl", "pekit-out", "vendor", "target", "dist", "node_modules", "__pycache__",
    ".ruff_cache", "archive"].map lit

def isKept (name : Component) : Bool := name.1 ∉ EXCLUDED

/-- `stat.S_ISLNK` -/
def isLink : Option Node → Bool
  | some (.symlink _) => true
  | _ => false

/-- `path.is_symlink()` -/
def isSymlink (t : FileTree Component) (path : List Component) : Except OsError Bool :=
  if t.Reachable path then return isLink (t.node? path) else throw .access

/-- `path.parts`, of a path below the root of the repository. -/
def parts (root : List Str) (path : List Component) : List Str := root ++ path.map Subtype.val

/-- What is found is a source: neither a link nor in `internal/uapi`. -/
def isOwned (root : List Str) (t : FileTree Component) (path : List Component) :
    Except OsError Bool := do
  if ← isSymlink t path then return false
  else return slice (parts root path) (-3) (-1) ≠ [lit "internal", lit "uapi"]

/-- Paths are compared part by part. -/
def pathLe (p q : List Component) : Bool := p.map Subtype.val ≤ q.map Subtype.val

/-- Enumerate owned source without following build-output symlinks, in a repository whose path has
the parts `root`. -/
def sources (root : List Str) (t : FileTree Component) :
    Except OsError (List (List Component)) := do
  let found ← (t.found isKept).foldlM (fun found path => do
    if ← isOwned root t path then return found ++ [path] else return found) []
  return found.mergeSort pathLe

/-! ### Running commands -/

/-- A command: the program, and its arguments, of which the files come last. -/
structure Command where
  program : Str
  options : List Str
  files : List Str
deriving DecidableEq

inductive Subprocess where
  /-- `subprocess.check_output(command, text=True)` -/
  | checkOutputText (command : Command)
  /-- `subprocess.check_output(command, cwd=ROOT)` -/
  | checkOutput (command : Command)
  /-- `subprocess.run(command, cwd=ROOT, check=True)` -/
  | run (command : Command)

namespace Subprocess

/-- What a command returns. -/
abbrev Value : Subprocess → Type
  | checkOutputText _ => Str
  | checkOutput _ => List UInt8
  | run _ => Unit

end Subprocess

/-- Why a check ends early. -/
inductive CheckError where
  /-- `unexpected … version; use tools/prepare-style-tools.py` -/
  | unexpectedVersion (name : Str)
  /-- `Go formatting differs; run tools/style-check.py --fix` -/
  | goDiffers
  /-- What a command or the system raises. -/
  | raised
deriving DecidableEq

namespace Subprocess

/-- What a command is answered with. -/
abbrev Reply (c : Subprocess) : Type := Except CheckError c.Value

end Subprocess

/-- A part of the program. -/
abbrev Checker := ExceptT CheckError (Prog Subprocess Subprocess.Reply)

/-- Run a command. -/
def Subprocess.ask (c : Subprocess) : Checker c.Value := ExceptT.mk (.lift c)

/-- `str(directory / name)`. -/
def toolPath (directory : PurePosixPath) (name : String) : Str :=
  { directory with parts := directory.parts ++ [lit name] : PurePosixPath }.str

/-- `bytes.isspace`, of one byte. -/
def isAsciiSpace (b : UInt8) : Bool := b = 0x20 ∨ (0x9 ≤ b ∧ b ≤ 0xd)

/-- `output.strip()`, of bytes. -/
def stripBytes (output : List UInt8) : List UInt8 :=
  (output.dropWhile isAsciiSpace).rdropWhile isAsciiSpace

/-- A line ends here. -/
def isLineBreak (c : CodePoint) : Bool :=
  (0xa ≤ c ∧ c ≤ 0xd) ∨ (0x1c ≤ c ∧ c ≤ 0x1e) ∨ c = 0x85 ∨ c = 0x2028 ∨ c = 0x2029

/-- `output.splitlines()`: in text the end of a line is one character already.  Where the output
ends with one there is a blank line more here, which no version is. -/
def splitlines (output : Str) : List Str := output.splitOnP isLineBreak

def expectedVersions : List (String × String) :=
  [("ruff", "ruff 0.17.0"), ("shellcheck", "version: 0.11.0"), ("shfmt", "v3.14.1"),
    ("clang-format", "clang-format version 18.1.8"), ("prettier", "3.9.10")]

/-- `[str(directory / name), "--version"]` -/
def versionCommand (directory : PurePosixPath) (name : String) : Command :=
  { program := toolPath directory name, options := [lit "--version"], files := [] }

/-- The output is that of the version that is pinned. -/
def isExpected (expected : String) (output : Str) : Bool :=
  lit expected ∈ (splitlines output).map strip

/-- Verify the tool identities before accepting output from an arbitrary directory. -/
def checkVersions (directory : PurePosixPath) : Checker Unit :=
  expectedVersions.forM fun (name, expected) => do
    let output ← (Subprocess.checkOutputText (versionCommand directory name)).ask
    if ¬ isExpected expected output then throw (.unexpectedVersion (lit name))

/-! ### Tools and their files -/

/-- `p.name` -/
def nameOf (p : List Component) : Str := (p.getLast?.map Subtype.val).getD []

/-- `p.suffix` -/
def suffixOf (p : List Component) : Str := suffix (nameOf p)

def isPython (p : List Component) : Bool :=
  suffixOf p = lit ".py" ∨ p.map Subtype.val = [lit "tools", lit "check-docs"]

def isShell (p : List Component) : Bool := suffixOf p = lit ".sh" ∨ nameOf p = lit "check"

def isRust (p : List Component) : Bool := suffixOf p = lit ".rs"

def isC (p : List Component) : Bool := suffixOf p = lit ".c" ∨ suffixOf p = lit ".h"

def isGo (p : List Component) : Bool := suffixOf p = lit ".go"

def isData (p : List Component) : Bool :=
  (suffixOf p = lit ".json" ∨ suffixOf p = lit ".yaml" ∨ suffixOf p = lit ".yml")
    ∧ nameOf p ≠ lit "package-lock.json"

/-- What is run on sources. -/
inductive Pass where
  | ruffCheck
  | ruffFormat
  | shellcheck
  | shfmt
  | rustfmt
  | clangFormat
  | gofmt
  | prettier
deriving DecidableEq

/-- `subprocess.run([program, *options, *files], cwd=ROOT, check=True)` -/
def runTool (program : Str) (options : List String) (files : List Str) : Checker Unit :=
  (Subprocess.run { program, options := options.map lit, files }).ask

variable (directory : PurePosixPath) (fix : Bool)

/-- Run a tool on files, to check them or to fix them. -/
def Pass.invoke (files : List Str) : Pass → Checker Unit
  | ruffCheck => runTool (toolPath directory "ruff")
      (["check", "--no-cache", "--config", "tools/ruff.toml"] ++ if fix then ["--fix"] else [])
      files
  | ruffFormat => runTool (toolPath directory "ruff")
      (["format", "--no-cache", "--config", "tools/ruff.toml"] ++ if fix then [] else ["--check"])
      files
  | shellcheck => runTool (toolPath directory "shellcheck") [] files
  | shfmt => runTool (toolPath directory "shfmt") ["-i", "4", if fix then "-w" else "-d"] files
  | rustfmt => runTool (lit "rustup")
      (["run", "1.98.1", "rustfmt", "--config-path", "tools/rustfmt.toml"]
        ++ if fix then [] else ["--check"]) files
  | clangFormat => runTool (toolPath directory "clang-format")
      (["--style=file:tools/clang-format.yaml"]
        ++ if fix then ["-i"] else ["--dry-run", "--Werror"]) files
  | gofmt =>
    if fix then runTool (lit "gofmt") ["-w"] files
    else do
      let output ← (Subprocess.checkOutput
        { program := lit "gofmt", options := [lit "-l"], files }).ask
      if stripBytes output ≠ [] then throw .goDiffers
  | prettier => runTool (toolPath directory "prettier")
      ["--config", "tools/prettier.json", if fix then "--write" else "--check"] files

/-- Run a tool that is not run without files. -/
def Pass.invokeAny (files : List Str) (pass : Pass) : Checker Unit :=
  if files ≠ [] then pass.invoke directory fix files else return ()

/-- Run the language checks, writing only when `fix` is requested. -/
def main (root : List Str) (t : FileTree Component) : Checker Unit := do
  let paths ← ExceptT.mk (.ret ((sources root t).mapError fun _ => CheckError.raised))
  checkVersions directory
  let python := (paths.filter isPython).map posix
  Pass.ruffCheck.invoke directory fix python
  Pass.ruffFormat.invoke directory fix python
  let shell := (paths.filter isShell).map posix
  Pass.shellcheck.invoke directory fix shell
  Pass.shfmt.invoke directory fix shell
  Pass.rustfmt.invokeAny directory fix ((paths.filter isRust).map posix)
  Pass.clangFormat.invokeAny directory fix ((paths.filter isC).map posix)
  Pass.gofmt.invokeAny directory fix ((paths.filter isGo).map posix)
  Pass.prettier.invokeAny directory fix ((paths.filter isData).map posix)

end StyleCheck
