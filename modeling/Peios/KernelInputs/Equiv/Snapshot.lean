import Peios.KernelInputs.Equiv.Check
import Peios.KernelInputs.Equiv.Origin

/-!
# What is exported is accepted

`exportSnapshot` writes the files of a commit and `ORIGIN.json` (`exec_exportSnapshot`), and
`checkSnapshot` accepts the directory that this makes (`accepts_of_written`).  `snapshot_agrees`
puts that together with what is accepted otherwise.
-/

namespace KernelInputs

open Python FileTree Interaction Interaction.Prog

/-! ### The files and `ORIGIN.json` -/

/-- The file that is written for `ORIGIN.json`. -/
def originFile (text : List UInt8) : File := { content := text, mode := 0o644, readable := true }

/-- The tree is made of the files of the entries and of `ORIGIN.json`. -/
def Written (tree : FileTree Component) (files : List (TreeEntry × List UInt8))
    (text : List UInt8) : Prop :=
  ∃ known, tree.Holds known ∧ ∀ q f, known q = some f ↔
    (q = [ORIGIN_JSON] ∧ originFile text = f) ∨
      q ≠ [ORIGIN_JSON] ∧ ∃ x ∈ files, x.1.path = q ∧ x.1.file x.2 = f

variable {files : List (TreeEntry × List UInt8)} {sha256 : Sha256} {git : Git} {commit : Str}
  {p : Place} {d : Disk} {metadata : Metadata} {tree : FileTree Component} {text : List UInt8}

theorem posix_singleton (k : Component) : posix [k] = k.1 := by simp [posix]

theorem splitName_ORIGIN_JSON : splitName (lit "ORIGIN.json") = .ok ([], ORIGIN_JSON) := by
  have hsplit : splitName (posix ([] ++ [ORIGIN_JSON])) = .ok ([], ORIGIN_JSON) := splitName_posix
  rw [List.nil_append, posix_singleton] at hsplit
  exact hsplit

/-- No entry is at a name that begins as none of the roots does, nor below it. -/
theorem TreeEntry.not_prefix_path (e : TreeEntry) {k : Component}
    (hk : ∀ root ∈ INPUT_PATHS, root.head? ≠ k.1.head?) : ¬ [k] <+: e.path := by
  -- a name begins as a root that it is within does
  have hhead : ∀ root name, root ≠ [] → Within root name → name.head? = root.head? := by
    rintro root name hroot (rfl | ⟨rest, rfl⟩)
    · rfl
    · rw [List.append_assoc, List.head?_append_of_ne_nil _ hroot]
  have hroots : ∀ root ∈ INPUT_PATHS, root ≠ [] := by decide
  rintro ⟨q, hq⟩
  obtain ⟨-, hname, -⟩ := e.path_spec
  obtain ⟨-, -, -, -, root, hroot, hwithin⟩ := checkedPath_eq_ok e.name_checked
  apply hk root hroot
  rw [← hhead root e.name (hroots root hroot) hwithin, ← hname, ← hq]
  apply hhead _ _ k.2.1
  by_cases hnil : q = []
  · left
    rw [hnil, List.append_nil, posix_singleton]
  · right
    rw [posix_append (by simp) hnil, posix_singleton]
    exact ⟨posix q, by simp⟩

theorem head?_ORIGIN_JSON : ∀ root ∈ INPUT_PATHS, root.head? ≠ ORIGIN_JSON.1.head? := by decide

/-- `ORIGIN.json` is written next to the files. -/
theorem Exported.exists_writeBytes (h : Exported tree files) (text : List UInt8) :
    ∃ tree', tree.writeBytes [] ORIGIN_JSON text = .ok tree' ∧ Written tree' files text := by
  obtain ⟨known, hholds, hknown⟩ := h
  have hroot : ∀ q f, known q = some f → ¬ [ORIGIN_JSON] <+: q := by
    intro q f hq
    obtain ⟨x, -, rfl, -⟩ := (hknown q f).mp hq
    exact x.1.not_prefix_path head?_ORIGIN_JSON
  obtain ⟨tree', hwrite, hholds'⟩ := hholds.exists_writeBytes hroot text
  refine ⟨tree', hwrite, _, hholds', fun q f => ?_⟩
  split_ifs with hq
  · simp [hq, originFile]
  · simp [hq, hknown]

variable (sha256) in
/-- The whole export. -/
theorem exec_exportSnapshot (h : Answers git commit (files.map Prod.fst) (batchOutput files))
    (hcommit : IsCommitId commit) (hseparate : Separate (files.map Prod.fst))
    (hentry : d.entry p = some (.directory .empty)) :
    ∃ tree metadata text, exec (reliable sha256 git) (exportSnapshot sha256 commit p) d
        = (.ok metadata, d.put p (some (.directory tree))) ∧
      Written tree files text ∧ metadata.Records sha256 commit files ∧ metadata.Sound ∧
      (readText text).bind Json.loads = some metadata.toJson := by
  obtain ⟨tree, metadata, hexport, hexported, hrecords⟩ := exportFiles_of_reads sha256 h
    (reads_batchOutput files) hseparate hentry
  have hsound := (sound_of_exportFiles hcommit hexport).2
  obtain ⟨text, hencode, hread⟩ := Json.readText_dumps (plain_toJson hsound)
  obtain ⟨tree', hwrite, hwritten⟩ := hexported.exists_writeBytes text
  refine ⟨tree', metadata, text, ?_, hwritten, hrecords, hsound, hread⟩
  have htext : exec (reliable sha256 git)
      (computed (orRaise (encodeUtf8 (Json.dumps metadata.toJson ++ [0xa])) .value))
      (d.put p (some (.directory tree))) = (.ok text, d.put p (some (.directory tree))) := by
    rw [exec_computed, hencode]
    rfl
  have horigin : exec (reliable sha256 git) (request (.writeBytes p (lit "ORIGIN.json") text))
      (d.put p (some (.directory tree))) = (.ok (), d.put p (some (.directory tree'))) := by
    rw [exec_request, reliable, splitName_ORIGIN_JSON, ok_bind, attempt_change
      (Disk.entry_put (Disk.hasParent_of_entry hentry)) hwrite, Disk.put_put]
  rw [exportSnapshot, exec_bind_ok hexport, exec_bind_ok htext, exec_bind_ok horigin]
  rfl

/-! ### Reading it back -/

/-- `ORIGIN.json` is read back. -/
theorem loadOrigin_toJson (hnode : tree.node? [ORIGIN_JSON] = some (.file (originFile text)))
    (hreach : tree.Reachable [ORIGIN_JSON]) (hsound : metadata.Sound)
    (hread : (readText text).bind Json.loads = some metadata.toJson) :
    loadOrigin { isSymlink := false, tree } false false = .ok metadata.origin := by
  have hopen : tree.openFile [ORIGIN_JSON] = .ok (originFile text) :=
    (openFile_of_node? hnode).mpr ⟨rfl, hreach, rfl⟩
  obtain ⟨data, hdata, horigin⟩ := originOf_toJson hsound
  simp only [loadOrigin, throw_eq, error_bind, ite_throw_eq_ok, bind_eq_ok, orRaise_eq_ok,
    liftOs_eq_ok, hnode]
  exact ⟨by simp, not_not.mpr hreach, by simp [isSymlink, isFile], _, hopen, _,
    hread, data, hdata, horigin⟩

/-- What is read can only be what has been written. -/
theorem origin_of_loadOrigin {f : File} {origin : Origin}
    (hnode : tree.node? [ORIGIN_JSON] = some (.file f)) (hsound : metadata.Sound)
    (hread : (readText f.content).bind Json.loads = some metadata.toJson)
    (h : loadOrigin { isSymlink := false, tree } false false = .ok origin) :
    origin = metadata.origin := by
  simp only [loadOrigin, throw_eq, error_bind, ite_throw_eq_ok, bind_eq_ok, orRaise_eq_ok,
    liftOs_eq_ok] at h
  obtain ⟨-, -, -, file, hopen, value, hvalue, data, hdata, horigin⟩ := h
  obtain ⟨rfl, -, -⟩ := (openFile_of_node? hnode).mp hopen
  obtain rfl := Option.some.inj (hread.symm.trans hvalue)
  obtain ⟨data', hdata', horigin'⟩ := originOf_toJson hsound
  obtain rfl := Option.some.inj (hdata.symm.trans hdata')
  exact Except.ok.inj (horigin.symm.trans horigin')

theorem Written.node?_origin (h : Written tree files text) :
    tree.node? [ORIGIN_JSON] = some (.file (originFile text)) := by
  obtain ⟨known, hholds, hknown⟩ := h
  exact (hholds.file _ _).mpr ((hknown _ _).mpr (.inl ⟨rfl, rfl⟩))

/-- A file that is not `ORIGIN.json` is that of an entry. -/
theorem Written.node?_eq_file (h : Written tree files text) {q : Path} {f : File}
    (hq : q ≠ [ORIGIN_JSON]) :
    tree.node? q = some (.file f) ↔ ∃ x ∈ files, x.1.path = q ∧ x.1.file x.2 = f := by
  obtain ⟨known, hholds, hknown⟩ := h
  rw [hholds.file, hknown]
  simp [hq]

/-- What is written is as it is recorded. -/
theorem matches_of_written (h : Written tree files text)
    (hrecords : metadata.Records sha256 commit files)
    (hcovers : ∀ root ∈ INPUT_PATHS, ∃ e ∈ files.map Prod.fst, Within root e.name)
    {sees : Path → Prop} (hsees : ∀ q n, tree.node? q = some n → sees q) :
    Matches tree metadata.origin metadata.fileModes sees
      fun name b => metadata.files.get? name = some (sha256.hexdigest b) := by
  have hentry := fun q f hq => h.node?_eq_file (q := q) (f := f) hq
  obtain ⟨known, hholds, hknown⟩ := h
  have hname : ∀ e : TreeEntry, posix e.path = e.name := fun e => e.path_spec.2.1
  refine ⟨?_, ?_, ?_, ?_, ?_⟩
  · intro q n _ hnode
    rcases hholds.plain q n hnode with hfile | hfull
    · exact .inl hfile
    · exact .inr ⟨_, hfull⟩
  · intro name
    show name ∈ metadata.files.keys ↔ _
    rw [Dict.mem_keys]
    simp only [hrecords.files]
    constructor
    · rintro ⟨digest, x, hx, rfl, -⟩
      have horigin : x.1.path ≠ [ORIGIN_JSON] := fun heq =>
        x.1.not_prefix_path head?_ORIGIN_JSON (heq ▸ List.prefix_refl _)
      have hnode := (hentry x.1.path _ horigin).mpr ⟨x, hx, rfl, rfl⟩
      exact ⟨x.1.path, _, hsees _ _ hnode, horigin, hname x.1, hnode⟩
    · rintro ⟨q, f, -, horigin, rfl, hnode⟩
      obtain ⟨x, hx, rfl, -⟩ := (hentry q f horigin).mp hnode
      exact ⟨_, x, hx, (hname x.1).symm, rfl⟩
  · intro q f _ horigin hnode
    obtain ⟨x, hx, rfl, rfl⟩ := (hentry q f horigin).mp hnode
    exact (hrecords.files _ _).mpr ⟨x, hx, (hname x.1).symm, rfl⟩
  · intro q f _ horigin hnode
    obtain ⟨x, hx, rfl, rfl⟩ := (hentry q f horigin).mp hnode
    have hmode : metadata.fileModes.get? (posix x.1.path) = some x.1.mode :=
      (hrecords.fileModes _ _).mpr ⟨x, hx, (hname x.1).symm, rfl⟩
    rw [hmode, Option.some.injEq]
    unfold isExecutable TreeEntry.file
    dsimp only
    split_ifs with hexecutable
    · exact iff_of_true (by decide) hexecutable
    · exact iff_of_false (by decide) hexecutable
  · intro root hroot
    obtain ⟨e, he, hwithin⟩ := hcovers root hroot
    obtain ⟨x, hx, rfl⟩ := List.mem_map.mp he
    refine ⟨x.1.name, ?_, hwithin⟩
    show x.1.name ∈ metadata.files.keys
    exact Dict.mem_keys.mpr ⟨_, (hrecords.files _ _).mpr ⟨x, hx, rfl, rfl⟩⟩

/-- The directory is accepted. -/
theorem accepts_of_written (h : Written tree files text)
    (hrecords : metadata.Records sha256 commit files)
    (hsound : metadata.Sound) (hread : (readText text).bind Json.loads = some metadata.toJson)
    (hcovers : ∀ root ∈ INPUT_PATHS, ∃ e ∈ files.map Prod.fst, Within root e.name) :
    ∃ origin, checkSnapshot sha256 { isSymlink := false, tree } false false = .ok origin := by
  have hnode := h.node?_origin
  obtain ⟨known, hholds, -⟩ := id h
  rw [checkSnapshot_eq_ok (loadOrigin_toJson hnode (hholds.reachable hnode) hsound hread) rfl]
  refine ⟨matches_of_written h hrecords hcovers fun q n => hholds.visible,
    fun q n _ _ hnode => hholds.reachable hnode, fun q f hq _ hnode => ?_⟩
  obtain ⟨x, -, -, rfl⟩ := (h.node?_eq_file hq).mp hnode
  rfl

/-- The names that are listed lead down from the roots. -/
theorem inside_of_loadOrigin {snapshot : Snapshot} {allowLegacy bazelInputs : Bool} {data : Origin}
    (h : loadOrigin snapshot allowLegacy bazelInputs = .ok data) :
    ∀ name ∈ data.files.keys, ∃ root ∈ INPUT_PATHS, Inside root name := by
  have hvalid := valid_of_loadOrigin h
  have hpaths : data.paths ⊆ INPUT_PATHS := by
    rcases hvalid.paths with heq | heq
    · rw [heq]
      exact List.Subset.refl _
    · rw [heq]
      exact List.subset_append_left ..
  intro name hname
  have hposix : ∀ root ∈ data.paths, ∃ p, p ≠ [] ∧ posix p = root := fun root hroot =>
    exists_posix_of_mem_INPUT_PATHS root (hpaths hroot)
  obtain ⟨root, hroot, hinside⟩ := inside_of_checkedPath hposix (hvalid.names name hname)
  exact ⟨root, hpaths hroot, hinside⟩

/-! ### What goes unseen -/

/-- The tree with one more node, where there is room for it. -/
def withNode (tree : FileTree Component) (p : Path) (k : Component) (n : Node) :
    FileTree Component :=
  if h : tree.IsDir p ∧ ¬ tree.IsDir (p ++ [k]) then tree.put p k n h.1 h.2 else tree

def HIDDEN : Component := ⟨lit "hidden", by decide⟩

/-- A directory that can be searched but not listed. -/
def unlistable : Node := .directory { listable := false, searchable := true }

def emptyFile : File := { content := [], mode := 0o644, readable := true }

/-- The tree with a file in a directory that cannot be listed. -/
def withHidden (tree : FileTree Component) : FileTree Component :=
  withNode (withNode tree [] HIDDEN unlistable) [HIDDEN] HIDDEN (.file emptyFile)

theorem node?_withNode {q r : Path} {k : Component} {n : Node} (hparent : tree.IsDir q)
    (hnone : tree.node? (q ++ [k]) = none) :
    (withNode tree q k n).node? r = if r = q ++ [k] then some n else tree.node? r := by
  have hnew : tree.IsDir q ∧ ¬ tree.IsDir (q ++ [k]) :=
    ⟨hparent, not_isDir_of_node? hnone fun a => by simp⟩
  unfold withNode
  rw [dif_pos hnew]
  exact node?_put

theorem head?_HIDDEN : ∀ root ∈ INPUT_PATHS, root.head? ≠ HIDDEN.1.head? := by decide

namespace Written

/-- There is room for the directory. -/
theorem node?_hidden (h : Written tree files text) : tree.node? [HIDDEN] = none := by
  obtain ⟨known, hholds, hknown⟩ := h
  have hapart : ∀ q f, known q = some f → ¬ [HIDDEN] <+: q := by
    intro q f hq
    rcases (hknown q f).mp hq with ⟨rfl, -⟩ | ⟨-, x, -, rfl, -⟩
    · decide
    · exact x.1.not_prefix_path head?_HIDDEN
  rw [Option.eq_none_iff_forall_ne_some]
  intro n hnode
  rcases hholds.plain _ n hnode with ⟨f, rfl⟩ | rfl
  · exact hapart _ f ((hholds.file _ f).mp hnode) (List.prefix_refl _)
  · rcases hholds.onPath _ ⟨_, hnode⟩ with hnil | ⟨q, f, hq, hpre⟩
    · cases hnil
    · exact hapart q f hq hpre

theorem node?_below (h : Written tree files text) : tree.node? ([HIDDEN] ++ [HIDDEN]) = none := by
  cases hnode : tree.node? ([HIDDEN] ++ [HIDDEN]) with
  | none => rfl
  | some n =>
    obtain ⟨a, ha⟩ := tree.parents _ _ n hnode
    cases h.node?_hidden.symm.trans ha

theorem node?_withHidden (h : Written tree files text) {q : Path} : (withHidden tree).node? q
    = if q = [HIDDEN, HIDDEN] then some (.file emptyFile)
      else if q = [HIDDEN] then some unlistable else tree.node? q := by
  have hfirst : ∀ r, (withNode tree [] HIDDEN unlistable).node? r
      = if r = [HIDDEN] then some unlistable else tree.node? r := fun r =>
    node?_withNode tree.root h.node?_hidden
  have hnone := h.node?_below
  have hdir : (withNode tree [] HIDDEN unlistable).IsDir [HIDDEN] :=
    ⟨_, by rw [hfirst, if_pos rfl]; rfl⟩
  unfold withHidden
  rw [node?_withNode hdir (by rw [hfirst, if_neg (by decide), hnone]), hfirst]
  rfl

/-- What was there still is, and is seen. -/
theorem withHidden_of_node? (h : Written tree files text) {q : Path} {n : Node}
    (hnode : tree.node? q = some n) :
    (withHidden tree).node? q = some n ∧ (withHidden tree).Reachable q ∧
      (withHidden tree).Visible q := by
  have hkeep : ∀ r m, tree.node? r = some m → (withHidden tree).node? r = some m := by
    intro r m hm
    rw [h.node?_withHidden, if_neg, if_neg, hm]
    · rintro rfl
      cases h.node?_hidden.symm.trans hm
    · rintro rfl
      cases h.node?_below.symm.trans hm
  obtain ⟨known, hholds, -⟩ := h
  have hway : ∀ r ∈ ancestors q, (withHidden tree).listable r = true ∧
      (withHidden tree).searchable r = true := by
    intro r hr
    obtain ⟨a, ha⟩ := isDir_of_mem_ancestors hnode hr
    rcases hholds.plain r _ ha with ⟨f, hf⟩ | hfull
    · cases hf
    · obtain rfl := Node.directory.inj hfull
      unfold listable searchable
      rw [hkeep r _ ha]
      exact ⟨rfl, rfl⟩
  have hreach : (withHidden tree).Reachable q := fun r hr => (hway r hr).2
  exact ⟨hkeep q n hnode, hreach, visible_of_reachable (fun r hr => (hway r hr).1) hreach⟩

/-- A listing shows only that, and the directory that cannot be listed. -/
theorem node?_of_visible_withHidden (h : Written tree files text) {q : Path} {n : Node}
    (hvisible : (withHidden tree).Visible q) (hnode : (withHidden tree).node? q = some n) :
    (q = [HIDDEN] ∧ n = unlistable) ∨ tree.node? q = some n := by
  rw [h.node?_withHidden] at hnode
  split_ifs at hnode with hbelow hdir
  · -- the directory on the way is not listed
    have hlisted := hvisible.1 [HIDDEN] (mem_ancestors.mpr ⟨by simp [hbelow], by simp [hbelow]⟩)
    unfold listable at hlisted
    rw [h.node?_withHidden, if_neg (by decide), if_pos rfl] at hlisted
    cases hlisted
  · exact .inl ⟨hdir, (Option.some.inj hnode).symm⟩
  · exact .inr hnode

/-- The file that is hidden in an exported snapshot is not one of those listed, but it is accepted.
-/
theorem accepts_withHidden (h : Written tree files text)
    (hrecords : metadata.Records sha256 commit files)
    (hsound : metadata.Sound) (hread : (readText text).bind Json.loads = some metadata.toJson)
    (hcovers : ∀ root ∈ INPUT_PATHS, ∃ e ∈ files.map Prod.fst, Within root e.name) :
    loadOrigin { isSymlink := false, tree := withHidden tree } false false = .ok metadata.origin ∧
    (∃ origin, checkSnapshot sha256 { isSymlink := false, tree := withHidden tree } false false
      = .ok origin) ∧
    ∀ lists, ¬ Matches (withHidden tree) metadata.origin metadata.fileModes (fun _ => True)
      lists := by
  obtain ⟨horigin, hreach, -⟩ := h.withHidden_of_node? h.node?_origin
  have hload := loadOrigin_toJson horigin hreach hsound hread
  have hwhole := matches_of_written h hrecords hcovers fun _ _ _ => trivial
  have hfile : ∀ q f, (withHidden tree).Visible q → (withHidden tree).node? q = some (.file f) →
      tree.node? q = some (.file f) := by
    intro q f hvisible hnode
    rcases h.node?_of_visible_withHidden hvisible hnode with ⟨-, hdir⟩ | hnode
    · cases hdir
    · exact hnode
  refine ⟨hload, ?_, ?_⟩
  · rw [checkSnapshot_eq_ok hload rfl]
    refine ⟨⟨?_, ?_, ?_, ?_, hwhole.roots⟩, ⟨?_, ?_⟩⟩
    · intro q n hvisible hnode
      rcases h.node?_of_visible_withHidden hvisible hnode with ⟨-, rfl⟩ | hnode
      · exact .inr ⟨_, rfl⟩
      · exact hwhole.plain q n trivial hnode
    · intro name
      rw [hwhole.files]
      constructor
      · rintro ⟨q, f, -, hrest⟩
        obtain ⟨hnode, -, hvisible⟩ := h.withHidden_of_node? hrest.2.2
        exact ⟨q, f, hvisible, hrest.1, hrest.2.1, hnode⟩
      · rintro ⟨q, f, hvisible, hq, hname, hnode⟩
        exact ⟨q, f, trivial, hq, hname, hfile q f hvisible hnode⟩
    · exact fun q f hvisible hq hnode => hwhole.contents q f trivial hq (hfile q f hvisible hnode)
    · exact fun q f hvisible hq hnode => hwhole.modes q f trivial hq (hfile q f hvisible hnode)
    · intro q n _ hvisible hnode
      rcases h.node?_of_visible_withHidden hvisible hnode with ⟨rfl, -⟩ | hnode
      · exact reachable_singleton.mpr (reachable_singleton.mp hreach)
      · exact (h.withHidden_of_node? hnode).2.1
    · intro q f hq hvisible hnode
      obtain ⟨x, -, -, rfl⟩ := (h.node?_eq_file hq).mp (hfile q f hvisible hnode)
      rfl
  · intro lists hmatches
    have hhidden : (withHidden tree).node? [HIDDEN, HIDDEN] = some (.file emptyFile) := by
      rw [h.node?_withHidden, if_pos rfl]
    obtain ⟨q, f, -, -, hname, hnode⟩ := (hwhole.files _).mp
      ((hmatches.files _).mpr ⟨_, _, trivial, by decide, rfl, hhidden⟩)
    obtain rfl := posix_injective (node?_file_ne_nil hnode) (by simp) hname
    cases h.node?_below.symm.trans hnode

end Written

/-- What is exported is accepted, and the names that are listed stay in the roots.  The checker
agrees with the whole of a directory exactly where nothing is hidden, and everything can be reached
and read, once all of it or what is seen of it matches. -/
theorem snapshot_agrees (sha256 : Sha256) :
    (∀ git commit files p d, IsCommitId commit →
      Answers git commit (files.map Prod.fst) (batchOutput files) →
      Separate (files.map Prod.fst) → d.entry p = some (.directory .empty) →
      ∃ tree metadata, exec (reliable sha256 git) (exportSnapshot sha256 commit p) d
          = (.ok metadata, d.put p (some (.directory tree))) ∧
        ∃ origin, checkSnapshot sha256 { isSymlink := false, tree } false false = .ok origin) ∧
    (∀ snapshot allowLegacy data modes contents,
      loadOrigin snapshot allowLegacy false = .ok data → data.modes = .listed modes →
      Identifies sha256 data snapshot.tree contents →
      (((∃ origin, checkSnapshot sha256 snapshot allowLegacy false = .ok origin) ↔
        Matches snapshot.tree data modes (fun _ => True) fun name b => contents name = some b) ↔
      ((Matches snapshot.tree data modes snapshot.tree.Visible
          (fun name b => contents name = some b) →
          Accessible snapshot.tree → NothingHidden snapshot.tree) ∧
        (Matches snapshot.tree data modes (fun _ => True) (fun name b => contents name = some b) →
          NothingHidden snapshot.tree ∧ Accessible snapshot.tree)))) ∧
    ∀ snapshot allowLegacy bazelInputs data,
      loadOrigin snapshot allowLegacy bazelInputs = .ok data →
      ∀ name ∈ data.files.keys, ∃ root ∈ INPUT_PATHS, Inside root name := by
  refine ⟨?_, fun _ _ _ _ _ hload hmodes => accepts_iff hload hmodes,
    fun _ _ _ _ => inside_of_loadOrigin⟩
  intro git commit files p d hcommit h hseparate hentry
  obtain ⟨tree, metadata, text, hexec, hwritten, hrecords, hsound, hread⟩ :=
    exec_exportSnapshot sha256 h hcommit hseparate hentry
  obtain ⟨listing, batch, -, hentries, -⟩ := h
  exact ⟨tree, metadata, hexec,
    accepts_of_written hwritten hrecords hsound hread (covers_of_selectEntries hentries)⟩

/-! ### Samples -/

/-- The files of `rootEntries`, two of which are not empty. -/
def sampleFiles : List (TreeEntry × List UInt8) := rootFiles "a" "a\nb"

/-- The run that exports the files of the sample. -/
def sampleSnapshotExport : Except PyError Metadata × Disk :=
  exec (reliable sampleSha256 (answering rootEntries (batchOutput sampleFiles)))
    (exportSnapshot sampleSha256 sampleCommit .staging) stagingDisk

theorem separate_sampleFiles : Separate (sampleFiles.map Prod.fst) :=
  separate_rootFiles "a" "a\nb"

theorem exists_written_sampleFiles : ∃ tree metadata text,
    sampleSnapshotExport = (.ok metadata, stagingDisk.put .staging (some (.directory tree))) ∧
    Written tree sampleFiles text ∧
    metadata.Records sampleSha256 sampleCommit sampleFiles ∧ metadata.Sound ∧
    (readText text).bind Json.loads = some metadata.toJson :=
  exec_exportSnapshot sampleSha256 (answers_rootFiles "a" "a\nb" _) (by decide)
    separate_sampleFiles rfl

/-- What the file of this name holds. -/
def contentOf (files : List (TreeEntry × List UInt8)) (name : Str) : Option (List UInt8) :=
  (files.find? fun x => x.1.name = name).map Prod.snd

theorem contentOf_eq_some (h : Separate (files.map Prod.fst)) {name : Str} {b : List UInt8} :
    contentOf files name = some b ↔ ∃ x ∈ files, x.1.name = name ∧ x.2 = b := by
  unfold contentOf
  induction files with
  | nil => simp
  | cons x files ih =>
    rw [List.map_cons, Separate, List.pairwise_cons] at h
    by_cases hx : x.1.name = name
    · rw [List.find?_cons_of_pos (by simpa using hx), Option.map_some, Option.some.injEq]
      constructor
      · exact fun hb => ⟨x, List.mem_cons_self, hx, hb⟩
      · rintro ⟨y, hy, hname, rfl⟩
        rcases List.mem_cons.mp hy with rfl | hy
        · rfl
        · exact absurd (.inl (hname.trans hx.symm)) (h.1 y.1 (List.mem_map_of_mem hy)).1
    · rw [List.find?_cons_of_neg (by simpa using hx), ih h.2]
      simp [hx]

/-- The digests that are recorded stand for the contents of the files, wherever these are as they
were written. -/
theorem Written.identifies (h : Written tree files text)
    (hrecords : metadata.Records sha256 commit files) (hseparate : Separate (files.map Prod.fst))
    {tree' : FileTree Component} (hsame : ∀ e : TreeEntry, tree'.node? e.path = tree.node? e.path) :
    Identifies sha256 metadata.origin tree' (contentOf files) := by
  constructor
  · intro name b hb
    obtain ⟨x, hx, hname, rfl⟩ := (contentOf_eq_some hseparate).mp hb
    exact (hrecords.files _ _).mpr ⟨x, hx, hname, rfl⟩
  · intro q f hnode hlisted
    obtain ⟨x, -, hname, -⟩ := (hrecords.files _ _).mp hlisted
    obtain ⟨hne, hpath, -⟩ := x.1.path_spec
    obtain rfl : x.1.path = q :=
      posix_injective hne (node?_file_ne_nil hnode) (hpath.trans hname)
    have horigin : x.1.path ≠ [ORIGIN_JSON] :=
      fun heq => x.1.not_prefix_path head?_ORIGIN_JSON (heq ▸ List.prefix_refl _)
    rw [hsame] at hnode
    obtain ⟨y, hy, hypath, rfl⟩ := (h.node?_eq_file horigin).mp hnode
    exact (contentOf_eq_some hseparate).mpr ⟨y, hy, hypath ▸ y.1.path_spec.2.1.symm, rfl⟩

theorem Written.identifies_withHidden (h : Written tree files text)
    (hrecords : metadata.Records sha256 commit files)
    (hseparate : Separate (files.map Prod.fst)) :
    Identifies sha256 metadata.origin (withHidden tree) (contentOf files) := by
  apply h.identifies hrecords hseparate
  intro e
  have hapart : ¬ [HIDDEN] <+: e.path := e.not_prefix_path head?_HIDDEN
  have hfile : e.path ≠ [HIDDEN, HIDDEN] := fun heq => hapart (heq ▸ ⟨[HIDDEN], rfl⟩)
  have hdirectory : e.path ≠ [HIDDEN] := fun heq => hapart (heq ▸ List.prefix_refl _)
  rw [h.node?_withHidden, if_neg hfile, if_neg hdirectory]

theorem covers_sampleFiles : ∀ root ∈ INPUT_PATHS,
    ∃ e ∈ sampleFiles.map Prod.fst, Within root e.name := by
  rw [sampleFiles, map_rootFiles]
  exact covers_of_selectEntries selectEntries_lsOutput

theorem snapshot_agrees_rootFiles : ∃ tree metadata data modes,
    ∃ contents : Str → Option (List UInt8),
      sampleSnapshotExport = (.ok metadata, stagingDisk.put .staging (some (.directory tree))) ∧
      (∃ origin, checkSnapshot sampleSha256 { isSymlink := false, tree } false false = .ok origin) ∧
      (((∃ origin, checkSnapshot sampleSha256 { isSymlink := false, tree } false false
          = .ok origin) ↔
        Matches tree data modes (fun _ => True) fun name b => contents name = some b) ↔
      ((Matches tree data modes tree.Visible (fun name b => contents name = some b) →
          Accessible tree → NothingHidden tree) ∧
        (Matches tree data modes (fun _ => True) (fun name b => contents name = some b) →
          NothingHidden tree ∧ Accessible tree))) ∧
      ∀ name ∈ data.files.keys, ∃ root ∈ INPUT_PATHS, Inside root name := by
  obtain ⟨hexport, hagrees, hinside⟩ := snapshot_agrees sampleSha256
  obtain ⟨tree, metadata, hexec, haccepts⟩ := hexport
    (answering rootEntries (batchOutput sampleFiles)) sampleCommit sampleFiles .staging
    stagingDisk (by decide) (answers_rootFiles "a" "a\nb" _) separate_sampleFiles rfl
  -- the run makes one tree only
  obtain ⟨tree', metadata', text, hexec', hwritten, hrecords, hsound, hread⟩ :=
    exists_written_sampleFiles
  have hsame : sampleSnapshotExport
      = (.ok metadata, stagingDisk.put .staging (some (.directory tree))) := hexec
  obtain rfl : tree' = tree := by
    have hdisk := congrArg (fun r => r.2.entry .staging) (hexec'.symm.trans hsame)
    exact Entry.directory.inj (Option.some.inj hdisk)
  obtain ⟨known, hholds, -⟩ := id hwritten
  have horigin := hwritten.node?_origin
  have hload := loadOrigin_toJson horigin (hholds.reachable horigin) hsound hread
  have hidentifies := hwritten.identifies hrecords separate_sampleFiles fun _ => rfl
  exact ⟨tree', metadata, metadata'.origin, metadata'.fileModes, _, hsame, haccepts,
    hagrees { isSymlink := false, tree := tree' } false metadata'.origin metadata'.fileModes _ hload
      rfl hidentifies,
    hinside { isSymlink := false, tree := tree' } false false metadata'.origin hload⟩

/-- A file that is hidden in the sample goes unseen. -/
theorem snapshot_agrees_withHidden : ∃ tree metadata data modes contents,
    sampleSnapshotExport = (.ok metadata, stagingDisk.put .staging (some (.directory tree))) ∧
    loadOrigin { isSymlink := false, tree := withHidden tree } false false = .ok data ∧
    data.modes = .listed modes ∧ Identifies sampleSha256 data (withHidden tree) contents ∧
    (∃ origin, checkSnapshot sampleSha256 { isSymlink := false, tree := withHidden tree } false
      false = .ok origin) ∧
    ¬ Matches (withHidden tree) data modes (fun _ => True)
      fun name b => contents name = some b := by
  obtain ⟨tree, metadata, text, hexec, hwritten, hrecords, hsound, hread⟩ :=
    exists_written_sampleFiles
  obtain ⟨hload, haccepts, hdiffers⟩ :=
    hwritten.accepts_withHidden hrecords hsound hread covers_sampleFiles
  have hidentifies := hwritten.identifies_withHidden hrecords separate_sampleFiles
  exact ⟨tree, metadata, metadata.origin, metadata.fileModes, _, hexec, hload, rfl, hidentifies,
    haccepts, hdiffers _⟩

end KernelInputs
