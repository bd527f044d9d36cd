import Peios.StyleCheck.Formatters

/-!
# Tools that tidy the ends of files

`tidyTools` is a set of tools that `main` can run: the formatters ask of a file that it ends with
one newline, and give it that, and the linters ask nothing.  They are what the program relies on
(`contract_tidyTools`).
-/

namespace FileTree

open Python

variable {K : Type} [DecidableEq K] {t : FileTree K} {p : List K}

/-- The tree with other content in some of its files. -/
def rewrite (t : FileTree K) (f : List K → File → File) : FileTree K :=
  let change (i : List K × Node) : List K × Node :=
    (i.1, match i.2 with
      | .file old => .file (f i.1 old)
      | n => n)
  have hdirectory : ∀ {q a}, t.nodes.get? q = some (.directory a) →
      (q, Node.directory a) ∈ t.nodes.items.map change := fun hq =>
    List.mem_map.mpr ⟨_, Dict.get?_eq_some.mp hq, rfl⟩
  { nodes :=
      { items := t.nodes.items.map change
        nodup := by
          rw [List.map_map]
          exact t.nodes.nodup }
    root := by
      obtain ⟨a, ha⟩ := t.root
      exact ⟨a, Dict.get?_eq_some.mpr (hdirectory ha)⟩
    parents := by
      intro q k n h
      obtain ⟨⟨q', n'⟩, hmem, heq⟩ := List.mem_map.mp (Dict.get?_eq_some.mp h)
      obtain rfl : q' = q ++ [k] := congrArg Prod.fst heq
      obtain ⟨a, ha⟩ := t.parents q k n' (Dict.get?_eq_some.mpr hmem)
      exact ⟨a, Dict.get?_eq_some.mpr (hdirectory ha)⟩ }

end FileTree

namespace StyleCheck

open Python FileTree Interaction Prog

/-- With one newline at its end. -/
def tidy (content : List UInt8) : List UInt8 := content.rdropWhile (· = 0xa) ++ [0xa]

/-- The options of the commands that fix files. -/
def fixOptions : List (List Str) :=
  [["format", "--no-cache", "--config", "tools/ruff.toml"], ["-i", "4", "-w"],
    ["run", "1.98.1", "rustfmt", "--config-path", "tools/rustfmt.toml"],
    ["--style=file:tools/clang-format.yaml", "-i"], ["-w"],
    ["--config", "tools/prettier.json", "--write"]].map (List.map lit)

/-- The options of the commands that lint files. -/
def lintOptions : List (List Str) :=
  [["check", "--no-cache", "--config", "tools/ruff.toml"],
    ["check", "--no-cache", "--config", "tools/ruff.toml", "--fix"], []].map (List.map lit)

/-- The files that a command names. -/
def Command.paths (c : Command) : List (List Component) := c.files.filterMap relative?

/-- All of the files can be opened, and satisfy a condition. -/
def allOpen (t : FileTree Component) (files : List (List Component)) (f : File → Bool) : Bool :=
  files.all fun p => match t.openFile p with
    | .ok file => f file
    | .error _ => false

/-- The file is as a formatter wants it. -/
def isTidy (f : File) : Bool := tidy f.content = f.content

/-- What is made of a file when some are fixed. -/
def tidied (files : List (List Component)) (p : List Component) (f : File) : File :=
  if p ∈ files then { f with content := tidy f.content } else f

/-- Tools of the versions that are expected, in a directory. -/
def tidyTools (directory : PurePosixPath) :
    Handler Subprocess Subprocess.Reply (FileTree Component)
  | .checkOutputText c, t =>
    (match expectedVersions.find? fun i => toolPath directory i.1 = c.program with
      | some i => .ok (lit i.2)
      | none => .error .raised, t)
  | .checkOutput c, t =>
    (if allOpen t c.paths fun _ => true then .ok (if allOpen t c.paths isTidy then [] else [0x2e])
      else .error .raised, t)
  | .run c, t =>
    if c.paths = [] ∨ allOpen t c.paths (fun _ => true) = false then (.error .raised, t)
    else if c.options ∈ fixOptions then
      -- links are left alone
      if c.paths.any fun p => isLink (t.node? p) then (.error .raised, t)
      else (.ok (), t.rewrite (tidied c.paths))
    else if c.options ∈ lintOptions ∨ allOpen t c.paths isTidy then (.ok (), t)
    else (.error .raised, t)

variable {directory : PurePosixPath} {t t' : FileTree Component} {p : List Component}
  {files : List (List Component)} {pass : Pass} {fix : Bool}

/-! ### What they do -/

/-- The options that a tool is run with; `gofmt` is not run so to check. -/
def Pass.options (fix : Bool) : Pass → List String
  | ruffCheck => ["check", "--no-cache", "--config", "tools/ruff.toml"]
      ++ if fix then ["--fix"] else []
  | ruffFormat => ["format", "--no-cache", "--config", "tools/ruff.toml"]
      ++ if fix then [] else ["--check"]
  | shellcheck => []
  | shfmt => ["-i", "4", if fix then "-w" else "-d"]
  | rustfmt => ["run", "1.98.1", "rustfmt", "--config-path", "tools/rustfmt.toml"]
      ++ if fix then [] else ["--check"]
  | clangFormat => ["--style=file:tools/clang-format.yaml"]
      ++ if fix then ["-i"] else ["--dry-run", "--Werror"]
  | gofmt => ["-w"]
  | prettier => ["--config", "tools/prettier.json", if fix then "--write" else "--check"]

end StyleCheck
