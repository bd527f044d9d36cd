import Peios.KernelInputs.Update

/-!
# `ORIGIN.json` is read back

Metadata is `Sound` if its names lie in the roots and have their digests and modes; what
`exportFiles` returns is, whatever its calls are answered with (`sound_of_exportFiles`).  Such
metadata is read back from its JSON text with the same files and modes (`plain_toJson`,
`originOf_toJson`).
-/

namespace KernelInputs

open Python Interaction Interaction.Prog

/-- Metadata that can be read back. -/
structure Metadata.Sound (metadata : Metadata) : Prop where
  commit : IsCommitId metadata.commit
  nonempty : metadata.files.keys ≠ []
  names : ∀ name ∈ metadata.files.keys,
    checkedPath name INPUT_PATHS = .ok name ∧ ∀ c ∈ name, c.isValidChar
  digests : ∀ name digest, metadata.files.get? name = some digest → IsDigest digest
  covered : ∀ name, name ∈ metadata.fileModes.keys ↔ name ∈ metadata.files.keys
  modes : ∀ name mode, metadata.fileModes.get? name = some mode → mode ∈ GIT_MODES

/-- What is read back. -/
def Metadata.origin (metadata : Metadata) : Origin :=
  { commit := metadata.commit
    paths := INPUT_PATHS
    files := metadata.files
    modes := .listed metadata.fileModes }

variable {metadata : Metadata}

/-! ### What is recorded -/

/-- The entries of a listing cover the roots. -/
theorem covers_of_selectEntries {listing : List UInt8} {entries : List TreeEntry}
    (h : selectEntries listing = .ok entries) :
    ∀ root ∈ INPUT_PATHS, ∃ e ∈ entries, Within root e.name := by
  simp only [selectEntries, bind_eq_ok, Python.pure_eq, Except.ok.injEq, List.forM_eq_forM] at h
  obtain ⟨entries', -, ⟨⟩, hroots, rfl⟩ := h
  intro root hroot
  have hcovered := forM_eq_ok.mp hroots root hroot
  split_ifs at hcovered with hexists
  exact hexists

/-- What has been recorded can be read back. -/
structure Progress.Sound (progress : Progress) : Prop where
  names : ∀ name ∈ progress.hashes.keys,
    checkedPath name INPUT_PATHS = .ok name ∧ ∀ c ∈ name, c.isValidChar
  digests : ∀ name digest, progress.hashes.get? name = some digest → IsDigest digest
  covered : ∀ name, name ∈ progress.modes.keys ↔ name ∈ progress.hashes.keys
  modes : ∀ name mode, progress.modes.get? name = some mode → mode ∈ GIT_MODES

theorem Progress.sound_empty (offset : Int) :
    ({ offset, hashes := .empty, modes := .empty } : Progress).Sound := by
  constructor
  · exact fun name h => absurd h List.not_mem_nil
  · intro name digest h
    cases h
  · exact fun name => Iff.rfl
  · intro name mode h
    cases h

/-- One more entry is recorded. -/
theorem Progress.Sound.add {progress : Progress} (h : progress.Sound) (sha256 : Sha256)
    (e : TreeEntry) (blob : List UInt8) (offset : Int) :
    ({ offset
       hashes := progress.hashes.set e.name (sha256.hexdigest blob)
       modes := progress.modes.set e.name e.mode } : Progress).Sound := by
  constructor
  · intro name hname
    rcases Dict.mem_keys_set.mp hname with rfl | hname
    · exact ⟨e.name_checked, e.name_valid⟩
    · exact h.names name hname
  · intro name digest hdigest
    rw [Dict.get?_set] at hdigest
    split_ifs at hdigest
    · exact Option.some.inj hdigest ▸ sha256.isDigest blob
    · exact h.digests name digest hdigest
  · intro name
    rw [Dict.mem_keys_set, Dict.mem_keys_set, h.covered]
  · intro name mode hmode
    rw [Dict.get?_set] at hmode
    split_ifs at hmode
    · exact Option.some.inj hmode ▸ e.mode_mem
    · exact h.modes name mode hmode

section

variable {σ : Type} {h : Handler Call Reply σ} {s s' : σ} {sha256 : Sha256} {p : Place}
  {contents : List UInt8} {e : TreeEntry} {progress progress' : Progress} {commit : Str}

/-- A round that goes on has recorded its entry. -/
theorem sound_of_exportEntry (hsound : progress.Sound)
    (hexec : exec h (exportEntry sha256 contents p progress e) s = (.ok progress', s')) :
    progress'.Sound ∧ progress'.hashes.keys ≠ [] := by
  unfold exportEntry at hexec
  obtain ⟨⟨blob, offset⟩, s₁, -, hexec⟩ := exec_bind_eq_ok hexec
  obtain ⟨_, s₂, -, hexec⟩ := exec_bind_eq_ok hexec
  obtain ⟨_, s₃, -, hexec⟩ := exec_bind_eq_ok hexec
  obtain ⟨_, s₄, -, hexec⟩ := exec_bind_eq_ok hexec
  obtain ⟨_, s₅, -, hexec⟩ := exec_bind_eq_ok hexec
  obtain rfl := Except.ok.inj (Prod.mk.inj hexec).1
  exact ⟨hsound.add sha256 e blob offset, List.ne_nil_of_mem (Dict.mem_keys_set.mpr (.inl rfl))⟩

/-- So has the loop. -/
theorem sound_of_foldlM {entries : List TreeEntry} (hsound : progress.Sound)
    (hne : entries ≠ [] ∨ progress.hashes.keys ≠ [])
    (hexec : exec h (entries.foldlM (exportEntry sha256 contents p) progress) s
      = (.ok progress', s')) : progress'.Sound ∧ progress'.hashes.keys ≠ [] := by
  induction entries generalizing progress s with
  | nil =>
    obtain rfl := Except.ok.inj (Prod.mk.inj hexec).1
    exact ⟨hsound, hne.resolve_left (absurd rfl)⟩
  | cons e entries ih =>
    rw [List.foldlM_cons] at hexec
    obtain ⟨progress₁, s₁, hstep, hexec⟩ := exec_bind_eq_ok hexec
    obtain ⟨hsound₁, hne₁⟩ := sound_of_exportEntry hsound hstep
    exact ih hsound₁ (.inr hne₁) hexec

/-- What is returned for a commit is sound, whatever calls are answered with. -/
theorem sound_of_exportFiles (hcommit : IsCommitId commit)
    (hexec : exec h (exportFiles sha256 commit p) s = (.ok metadata, s')) :
    metadata.commit = commit ∧ metadata.Sound := by
  unfold exportFiles treeEntries at hexec
  obtain ⟨entries, s₁, hentries, hexec⟩ := exec_bind_eq_ok hexec
  obtain ⟨listing, s₂, -, hselect⟩ := exec_bind_eq_ok hentries
  rw [exec_computed] at hselect
  obtain ⟨batch, s₃, -, hexec⟩ := exec_bind_eq_ok hexec
  obtain ⟨contents, s₄, -, hexec⟩ := exec_bind_eq_ok hexec
  obtain ⟨progress, s₅, hloop, hexec⟩ := exec_bind_eq_ok hexec
  have hne : entries ≠ [] := by
    rintro rfl
    obtain ⟨e, he, -⟩ := covers_of_selectEntries (Prod.mk.inj hselect).1 (lit "include/uapi/pkm")
      (by decide)
    cases he
  obtain ⟨hsound, hkeys⟩ := sound_of_foldlM (Progress.sound_empty 0) (.inl hne) hloop
  by_cases hend : progress.offset ≠ contents.length
  · rw [if_pos hend] at hexec
    cases hexec
  · rw [if_neg hend] at hexec
    obtain rfl := Except.ok.inj (Prod.mk.inj hexec).1
    refine ⟨rfl, hcommit, ?_, ?_, ?_, ?_, ?_⟩
    · obtain ⟨name, hname⟩ := List.exists_mem_of_ne_nil _ hkeys
      exact List.ne_nil_of_mem (Dict.mem_keys_sorted.mpr hname)
    · exact fun name hname => hsound.names name (Dict.mem_keys_sorted.mp hname)
    · intro name digest hdigest
      rw [Dict.get?_sorted] at hdigest
      exact hsound.digests name digest hdigest
    · intro name
      rw [Dict.mem_keys_sorted, Dict.mem_keys_sorted, hsound.covered]
    · intro name mode hmode
      rw [Dict.get?_sorted] at hmode
      exact hsound.modes name mode hmode

end

/-! ### What is read back -/

/-- The strings of a dictionary as JSON. -/
def stringMembers (d : Dict Str Str) : List (Str × Json.Value) :=
  d.items.map fun i => (i.1, .string i.2)

theorem items_ofList_stringMembers (d : Dict Str Str) :
    (Dict.ofList (stringMembers d)).items = stringMembers d := by
  apply Dict.items_ofList
  unfold stringMembers
  rw [List.map_map]
  exact d.nodup

/-- A check that keeps the strings of a dictionary returns it. -/
theorem mapM_stringMembers {d : Dict Str Str} {f : Str → Json.Value → Except PyError Str}
    (h : ∀ name s, d.get? name = some s → f name (.string s) = .ok s) :
    (Dict.ofList (stringMembers d)).mapM f = .ok d := by
  rw [Dict.mapM_eq_ok, items_ofList_stringMembers]
  unfold stringMembers
  rw [List.map_map]
  apply List.map_congr_left
  intro i hi
  rw [Function.comp_apply, h i.1 i.2 (Dict.get?_eq_some.mpr hi)]

theorem strings?_array (l : List Str) : (Json.Value.array (l.map .string)).strings? = some l := by
  have hstrings : (l.map Json.Value.string).mapM Json.Value.string? = some l := by
    induction l with
    | nil => rfl
    | cons s l ih =>
      rw [List.map_cons, List.mapM_cons, ih]
      rfl
  exact hstrings

/-- Each member is found under its name. -/
theorem get?_toJson {data : Dict Str Json.Value} (hdata : metadata.toJson.dict? = some data)
    (name : Str) {v : Json.Value} :
    data.get? name = some v ↔ (name, v) ∈ [
      (lit "repository", .string REPOSITORY),
      (lit "commit", .string metadata.commit),
      (lit "paths", .array (INPUT_PATHS.map .string)),
      (lit "ownership", .string OWNERSHIP),
      (lit "files", .object (stringMembers metadata.files)),
      (lit "file_modes", .object (stringMembers metadata.fileModes))] := by
  obtain rfl := Option.some.inj hdata
  rw [Dict.get?_eq_some, Dict.items_ofList]
  · rfl
  · show [lit "repository", lit "commit", lit "paths", lit "ownership", lit "files",
      lit "file_modes"].Nodup
    decide

/-- The digests are those of names in the roots. -/
theorem checkedFiles_stringMembers (h : metadata.Sound) :
    checkedFiles INPUT_PATHS (.ofList (stringMembers metadata.files)) = .ok metadata.files := by
  apply mapM_stringMembers
  intro name digest hdigest
  have hname := (h.names name (Dict.mem_keys.mpr ⟨digest, hdigest⟩)).1
  rw [hname, ok_bind, orRaise_eq_ok]
  exact Option.filter_eq_some_iff.mpr ⟨rfl, decide_eq_true (h.digests name digest hdigest)⟩

/-- The modes cover the files. -/
theorem coveringModes_stringMembers (h : metadata.Sound) :
    coveringModes metadata.files (some (.object (stringMembers metadata.fileModes)))
      = .ok metadata.fileModes := by
  have hkeys : (Dict.ofList (stringMembers metadata.fileModes)).keys = metadata.fileModes.keys := by
    unfold Dict.keys
    rw [items_ofList_stringMembers]
    unfold stringMembers
    rw [List.map_map]
    rfl
  have hcovers : metadata.fileModes.keys ⊆ metadata.files.keys ∧
      metadata.files.keys ⊆ metadata.fileModes.keys :=
    ⟨fun _ hname => (h.covered _).mp hname, fun _ hname => (h.covered _).mpr hname⟩
  unfold coveringModes
  show (do
    let modes ← Except.ok (Dict.ofList (stringMembers metadata.fileModes))
    _ : Except PyError (Dict Str Str)) = _
  rw [ok_bind, hkeys, if_neg (not_not.mpr hcovers)]
  apply mapM_stringMembers
  intro name mode hmode
  rw [orRaise_eq_ok]
  exact Option.filter_eq_some_iff.mpr ⟨rfl, decide_eq_true (h.modes name mode hmode)⟩

/-- The metadata is what its members say. -/
theorem originOf_toJson (h : metadata.Sound) :
    ∃ data, metadata.toJson.dict? = some data ∧ originOf data false = .ok metadata.origin := by
  obtain ⟨data, hdata⟩ : ∃ data, metadata.toJson.dict? = some data := ⟨_, rfl⟩
  refine ⟨data, hdata, ?_⟩
  have hrepository := (get?_toJson hdata (lit "repository")).mpr (.head _)
  have hcommit := (get?_toJson hdata (lit "commit")).mpr (.tail _ (.head _))
  have hpaths := (get?_toJson hdata (lit "paths")).mpr (.tail _ (.tail _ (.head _)))
  have hfiles := (get?_toJson hdata (lit "files")).mpr
    (.tail _ (.tail _ (.tail _ (.tail _ (.head _)))))
  have hmodes := (get?_toJson hdata (lit "file_modes")).mpr
    (.tail _ (.tail _ (.tail _ (.tail _ (.tail _ (.head _))))))
  have hne : (Dict.ofList (stringMembers metadata.files)).items ≠ [] := by
    rw [items_ofList_stringMembers]
    exact fun hnil => h.nonempty (List.map_eq_nil_iff.mpr (List.map_eq_nil_iff.mp hnil))
  have hlisted : checkedModes false metadata.files
      (some (.object (stringMembers metadata.fileModes))) = .ok (.listed metadata.fileModes) := by
    unfold checkedModes
    dsimp only
    rw [coveringModes_stringMembers h]
    rfl
  unfold originOf
  rw [hrepository, hcommit, hpaths, hfiles, hmodes]
  simp only [Option.bind_some, Json.Value.string?, strings?_array, Json.Value.dict?, Bool.false_and,
    throw_eq, error_bind, ite_throw_eq_ok, bind_eq_ok, orRaise_eq_ok]
  refine ⟨not_not.mpr rfl, metadata.commit,
    Option.filter_eq_some_iff.mpr ⟨rfl, decide_eq_true h.commit⟩, INPUT_PATHS, rfl, ?_⟩
  refine ⟨fun hroots => hroots.1 rfl, _, rfl, hne, metadata.files,
    checkedFiles_stringMembers h, .listed metadata.fileModes, hlisted, rfl⟩

theorem isValidChar_of_isHex {lengths : List Nat} {s : Str} (h : IsHex lengths s) :
    ∀ c ∈ s, c.isValidChar := by
  intro c hc
  left
  rcases h.2 c hc with ⟨-, hle⟩ | ⟨-, hle⟩
  · have hle : c.toNat ≤ 0x39 := hle
    omega
  · have hle : c.toNat ≤ 0x66 := hle
    omega

/-- Strings are plain, and so is a dictionary of them. -/
theorem plain_stringMembers {d : Dict Str Str} (hnames : ∀ name ∈ d.keys, ∀ c ∈ name, c.isValidChar)
    (hstrings : ∀ name s, d.get? name = some s → ∀ c ∈ s, c.isValidChar) :
    Json.Plain (.object (stringMembers d)) := by
  constructor
  · intro m hm
    obtain ⟨i, hi, rfl⟩ := List.mem_map.mp hm
    exact hnames i.1 (List.mem_map_of_mem hi)
  · intro m hm
    obtain ⟨i, hi, rfl⟩ := List.mem_map.mp hm
    exact .string (hstrings i.1 i.2 (Dict.get?_eq_some.mpr hi))

/-- It is plain JSON, so its text is read back. -/
theorem plain_toJson (h : metadata.Sound) : Json.Plain metadata.toJson := by
  have hnames : ∀ name ∈ metadata.files.keys, ∀ c ∈ name, c.isValidChar := fun name hname =>
    (h.names name hname).2
  have hpaths : ∀ root ∈ INPUT_PATHS, ∀ c ∈ root, c.isValidChar := by decide
  have hmodes : ∀ mode ∈ GIT_MODES, ∀ c ∈ mode, c.isValidChar := by decide
  have hmembers : ∀ m ∈ [
      (lit "repository", Json.Value.string REPOSITORY),
      (lit "commit", .string metadata.commit),
      (lit "paths", .array (INPUT_PATHS.map .string)),
      (lit "ownership", .string OWNERSHIP),
      (lit "files", .object (stringMembers metadata.files)),
      (lit "file_modes", .object (stringMembers metadata.fileModes))],
      (∀ c ∈ m.1, c.isValidChar) ∧ Json.Plain m.2 := by
    simp only [List.forall_mem_cons]
    refine ⟨⟨isValidChar_lit _, .string (isValidChar_lit _)⟩,
      ⟨isValidChar_lit _, .string (isValidChar_of_isHex h.commit)⟩,
      ⟨isValidChar_lit _, .array fun v hv => ?_⟩, ⟨isValidChar_lit _, .string (isValidChar_lit _)⟩,
      ⟨isValidChar_lit _, plain_stringMembers hnames fun name digest hdigest =>
        isValidChar_of_isHex (h.digests name digest hdigest)⟩,
      ⟨isValidChar_lit _, plain_stringMembers
        (fun name hname => hnames name ((h.covered name).mp hname))
        fun name mode hmode => hmodes mode (h.modes name mode hmode)⟩, List.forall_mem_nil _⟩
    obtain ⟨root, hroot, rfl⟩ := List.mem_map.mp hv
    exact .string (hpaths root hroot)
  exact .object (fun m hm => (hmembers m hm).1) fun m hm => (hmembers m hm).2

end KernelInputs
