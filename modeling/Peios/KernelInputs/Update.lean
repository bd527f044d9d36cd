import Peios.Interaction.Triple
import Peios.KernelInputs.Snapshot

/-!
# Updating a snapshot

`updateSnapshot` stages the files of a commit in a temporary directory, checks them and puts them in
the place of the snapshot there is, which it keeps as a backup until then.  It is a program over
what it asks of Git and of the file system: `reliable` answers from a `Disk`, and `faulty` makes any
of the calls fail or be interrupted, before or after its effect, and leaves what was being written
or removed in any state.
-/

namespace KernelInputs

open Python FileTree Interaction Interaction.Prog

/-! ### Calls -/

/-- The paths of an update: the snapshot there is, and two in the temporary directory. -/
inductive Place where
  | current
  | staging
  | previous
deriving DecidableEq

/-- What the program asks for. -/
inductive Call where
  /-- Run a local Git read. -/
  | git (args : List Str) (input : List UInt8)
  | exists_ (p : Place)
  | isSymlink (p : Place)
  /-- `check_snapshot` of a place: it only reads. -/
  | check (p : Place) (allowLegacy : Bool)
  /-- The directory that the destination lies in. -/
  | makeDestinationParent
  | mkdtemp
  | mkdir (p : Place)
  /-- The directories that a file lies in. -/
  | makeParents (p : Place) (name : Str)
  | writeBytes (p : Place) (name : Str) (b : List UInt8)
  | chmod (p : Place) (name : Str) (mode : Nat)
  /-- `os.replace`. -/
  | replace (source target : Place)
  /-- `shutil.rmtree` of the temporary directory. -/
  | rmtree
  /-- A message that the backup is preserved. -/
  | report
  /-- A point between two calls at which an interruption may come. -/
  | poll

/-- What calls return. -/
abbrev Value : Call → Type
  | .git _ _ => List UInt8
  | .exists_ _ => Bool
  | .isSymlink _ => Bool
  | .check _ _ => Origin
  | _ => Unit

/-- What calls are answered with. -/
abbrev Reply (c : Call) : Type := Except PyError (Value c)

/-- A part of the program. -/
abbrev Updater := ExceptT PyError (Prog Call Reply)

/-- Make a call. -/
def request (c : Call) : Updater (Value c) := ExceptT.mk (.lift c)

/-- What has been computed. -/
def computed {α : Type} (x : Except PyError α) : Updater α := ExceptT.mk (.ret x)

section

variable {σ α : Type} (h : Handler Call Reply σ) (s : σ)

@[simp] theorem exec_request (c : Call) : exec h (request c) s = h c s := rfl

@[simp] theorem exec_computed (x : Except PyError α) : exec h (computed x) s = (x, s) := rfl

end

/-! ### Git -/

/-- Accept a complete commit object ID, never a moving ref or abbreviated ID. -/
def exactCommit (commit : Str) : Updater Str := do
  if ¬ IsCommitId commit then throw (.snapshot .incompleteCommit)
  let resolved ← request
    (.git [lit "rev-parse", lit "--verify", commit ++ lit "^\x7bcommit\x7d"] [])
  let resolved ← computed (orRaise (decodeUtf8 resolved) .value)
  if strip resolved ≠ commit then throw (.snapshot .notTheCommit)
  return commit

/-- A regular file of a Git tree. -/
structure TreeEntry where
  name : Str
  mode : Str
  objectId : Str
  name_checked : checkedPath name INPUT_PATHS = .ok name
  name_valid : ∀ c ∈ name, c.isValidChar
  mode_mem : mode ∈ GIT_MODES
  objectId_word : IsWord objectId ∧ ∀ c ∈ objectId, c < 0x80
deriving DecidableEq

/-- The three words of a record, in ASCII. -/
def metadataWords (metadata : List UInt8) :
    Except PyError { ws : Str × Str × Str // IsWord ws.2.2 ∧ ∀ c ∈ ws.2.2, c < 0x80 } :=
  match htext : decodeAscii metadata with
  | none => .error .value
  | some text =>
    match hwords : splitWords text with
    | [mode, kind, objectId] =>
      .ok ⟨(mode, kind, objectId), by
        have hmem : objectId ∈ splitWords text := by simp [hwords]
        refine ⟨isWord_of_mem_splitWords _ hmem, fun c hc => ?_⟩
        exact lt_of_decodeAscii htext c (mem_of_mem_splitWords hmem hc)⟩
    | _ => .error .value

/-- The entry of a record. -/
def treeEntry (record : List UInt8) : Except PyError TreeEntry := do
  let (metadata, rawPath) ← orRaise (splitOnce record 0x9) .value
  let ⟨(mode, kind, objectId), hword⟩ ← metadataWords metadata
  match hname : decodeUtf8 rawPath with
  | none => throw .value
  | some name =>
    match hpath : checkedPath name INPUT_PATHS with
    | .error e => .error e
    | .ok path =>
      if hmode : kind = lit "blob" ∧ mode ∈ GIT_MODES then
        return {
          name := path, mode, objectId
          name_checked := (checkedPath_eq_ok hpath).1 ▸ hpath
          name_valid := (checkedPath_eq_ok hpath).1 ▸ isValidChar_of_decodeUtf8 hname
          mode_mem := hmode.2
          objectId_word := hword }
      else throw (.snapshot (.notRegularFile path))

/-- The entries that a listing selects. -/
def selectEntries (listing : List UInt8) : Except PyError (List TreeEntry) := do
  let entries ← ((listing.splitOn 0).filter (· ≠ [])).mapM treeEntry
  INPUT_PATHS.forM fun root =>
    if ∃ e ∈ entries, Within root e.name then return ()
    else throw (.snapshot (.revisionMissing root))
  return entries

/-- The arguments that list the files of a commit. -/
def lsTree (commit : Str) : List Str :=
  [lit "ls-tree", lit "-r", lit "-z", lit "--full-tree", commit, lit "--"] ++ INPUT_PATHS

/-- Select regular Git blobs, preserving their paths and executable bits. -/
def treeEntries (commit : Str) : Updater (List TreeEntry) := do
  let listing ← request (.git (lsTree commit) [])
  computed (selectEntries listing)

/-- Where the blob at an offset of Git's batch output starts, and its size. -/
def readHeader (contents : List UInt8) (offset : Int) (entry : TreeEntry) :
    Except PyError (Int × Int) := do
  let end_ := find contents 0xa offset
  let text ← orRaise (decodeAscii (slice contents offset end_)) .value
  let header := splitWords text
  if end_ < 0 ∨ header.length ≠ 3 ∨ header.take 2 ≠ [entry.objectId, lit "blob"] then
    throw (.snapshot (.unexpectedResponse entry.name))
  let size ← orRaise (parseInt 10 (header.getD 2 [])) .value
  return (end_ + 1, size)

/-- The blob at an offset, and the offset after it. -/
def readBlob (contents : List UInt8) (offset : Int) (entry : TreeEntry) :
    Except PyError (List UInt8 × Int) := do
  let (start, size) ← readHeader contents offset entry
  let blob := slice contents start (start + size)
  let offset := start + size + 1
  if (blob.length : Int) ≠ size ∨ slice contents (offset - 1) offset ≠ [0xa] then
    throw (.snapshot (.truncatedResponse entry.name))
  return (blob, offset)

/-! ### Exporting -/

/-- What is written to `ORIGIN.json`. -/
structure Metadata where
  commit : Str
  files : Dict Str Str
  fileModes : Dict Str Str

/-- The metadata as JSON. -/
def Metadata.toJson (metadata : Metadata) : Json.Value :=
  .object [
    (lit "repository", .string REPOSITORY),
    (lit "commit", .string metadata.commit),
    (lit "paths", .array (INPUT_PATHS.map .string)),
    (lit "ownership", .string OWNERSHIP),
    (lit "files", .object (metadata.files.items.map fun i => (i.1, .string i.2))),
    (lit "file_modes", .object (metadata.fileModes.items.map fun i => (i.1, .string i.2)))]

/-- Where the loop is in the output, and what it has recorded. -/
structure Progress where
  offset : Int
  hashes : Dict Str Str
  modes : Dict Str Str

/-- The next file. -/
def exportEntry (sha256 : Sha256) (contents : List UInt8) (destination : Place)
    (progress : Progress) (entry : TreeEntry) : Updater Progress := do
  let (blob, offset) ← computed (readBlob contents progress.offset entry)
  request (.makeParents destination entry.name)
  request (.writeBytes destination entry.name blob)
  let mode ← computed (orRaise (parseInt 8 entry.mode) .value)
  request (.chmod destination entry.name (mode.toNat &&& 0o777))
  return {
    offset
    hashes := progress.hashes.set entry.name (sha256.hexdigest blob)
    modes := progress.modes.set entry.name entry.mode }

/-- The arguments that read blobs. -/
def catFile : List Str := [lit "cat-file", lit "--batch"]

/-- The object IDs of the entries, one on a line. -/
def batchInput (entries : List TreeEntry) : Str := entries.flatMap fun e => e.objectId ++ [0xa]

/-- Copy committed blobs directly, ignoring dirty files and archive attributes. -/
def exportFiles (sha256 : Sha256) (commit : Str) (destination : Place) : Updater Metadata := do
  let entries ← treeEntries commit
  let batch ← computed (orRaise (encodeAscii (batchInput entries)) .value)
  let contents ← request (.git catFile batch)
  let progress ← entries.foldlM (exportEntry sha256 contents destination)
    { offset := 0, hashes := .empty, modes := .empty }
  if progress.offset ≠ contents.length then throw (.snapshot .trailingData)
  return {
    commit
    files := progress.hashes.sorted strLe
    fileModes := progress.modes.sorted strLe }

/-- The files of a commit, with what is to be known of them. -/
def exportSnapshot (sha256 : Sha256) (commit : Str) (destination : Place) : Updater Metadata := do
  let metadata ← exportFiles sha256 commit destination
  let text ← computed (orRaise (encodeUtf8 (Json.dumps metadata.toJson ++ [0xa])) .value)
  request (.writeBytes destination (lit "ORIGIN.json") text)
  return metadata

/-! ### Installing -/

/-- Replace only a verified snapshot and restore it if installation fails. -/
def installSnapshot (staged destination backup : Place) : Updater Unit := do
  let hadPrevious ← request (.exists_ destination)
  if hadPrevious then request (.replace destination backup)
  tryCatch (request (.replace staged destination)) fun e => do
    if hadPrevious then request (.replace backup destination)
    throw e

/-- The staged snapshot is written, checked and installed. -/
def stageSnapshot (sha256 : Sha256) (commit : Str) : Updater Metadata := do
  let metadata ← exportSnapshot sha256 commit .staging
  let _ ← request (.check .staging false)
  installSnapshot .staging .current .previous
  request .poll
  return metadata

/-- The temporary directory is removed, unless it holds the only copy. -/
def cleanUp (installed : Bool) : Updater Unit := do
  request .poll
  let removable ← if installed then pure true else (! ·) <$> request (.exists_ .previous)
  if removable then request .rmtree else request .report

/-- Stage and validate a complete replacement before touching the current copy. -/
def updateSnapshot (sha256 : Sha256) (commit : Str) : Updater Metadata := do
  let commit ← exactCommit commit
  let present ← do
    if ← request (.exists_ .current) then pure true else request (.isSymlink .current)
  if present then
    let _ ← request (.check .current true)
  request .makeDestinationParent
  request .mkdtemp
  request (.mkdir .staging)
  let result ← ExceptT.mk (.ok <$> (stageSnapshot sha256 commit).run)
  -- `installed` is set next, so it tells whether all of that was done
  tryFinally (do
    let metadata ← computed result
    request .poll
    return metadata) (cleanUp result.isOk)

end KernelInputs
