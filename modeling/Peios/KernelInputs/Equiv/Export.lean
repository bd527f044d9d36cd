import Peios.KernelInputs.Disk

/-!
# Exporting blobs

Git's batch output is the records of the entries one after the other (`batchOutput`).  `Reads` says
that bytes are such records, in whatever way their sizes are written: no record goes on after
another one ends, so there is only one way to read bytes as records, and none of what is a part of
them (`Reads.unique`).  `readBlob` steps over one record (`readBlob_eq_ok`), and so the loop over
the entries writes what is read off the output, or fails.
-/

namespace KernelInputs

open Python FileTree Interaction Interaction.Prog

/-! ### Records -/

/-- The first line of a record. -/
def headerText (e : TreeEntry) (size : Nat) : Str :=
  e.objectId ++ 0x20 :: (lit "blob" ++ 0x20 :: decimal size)

/-- A record of Git's batch output, with this size in its first line. -/
def record (e : TreeEntry) (size : Nat) (blob : List UInt8) : List UInt8 :=
  (headerText e size).map UInt32.toUInt8 ++ 0xa :: (blob ++ [0xa])

/-- Git's batch output for entries with their blobs. -/
def batchOutput (files : List (TreeEntry × List UInt8)) : List UInt8 :=
  files.flatMap fun f => record f.1 f.2.length f.2

/-- The bytes are the record of a blob. -/
def IsRecord (e : TreeEntry) (blob bytes : List UInt8) : Prop :=
  ∃ line text size, bytes = line ++ 0xa :: (blob ++ [0xa]) ∧ 0xa ∉ line ∧
    decodeAscii line = some text ∧ splitWords text = [e.objectId, lit "blob", size] ∧
    parseInt 10 size = some (blob.length : Int)

/-- The bytes are the records of entries with these blobs. -/
inductive Reads : List (TreeEntry × List UInt8) → List UInt8 → Prop where
  | nil : Reads [] []
  | cons {e : TreeEntry} {blob bytes rest : List UInt8} {files : List (TreeEntry × List UInt8)} :
      IsRecord e blob bytes → Reads files rest → Reads ((e, blob) :: files) (bytes ++ rest)

variable {e : TreeEntry} {blob blob' bytes bytes' rest rest' contents : List UInt8}

theorem isWord_blob : IsWord (lit "blob") := by decide

theorem splitWords_headerText (e : TreeEntry) (size : Nat) :
    splitWords (headerText e size) = [e.objectId, lit "blob", decimal size] := by
  unfold headerText
  rw [splitWords_append_space e.objectId_word.1, splitWords_append_space isWord_blob,
    splitWords_of_isWord (isWord_decimal size).1]

/-- The first line is in ASCII, and one line. -/
theorem headerText_ascii (e : TreeEntry) (size : Nat) :
    (∀ c ∈ headerText e size, c < 0x80) ∧ (0xa : CodePoint) ∉ headerText e size := by
  have hblob : (∀ c ∈ lit "blob", c < 0x80) ∧ (0x20 : CodePoint) < 0x80 := by decide
  have hline : isSpace 0xa = true := by decide
  have hnot : ∀ w, IsWord w → (0xa : CodePoint) ∉ w := by
    intro w hw hmem
    rw [hw.2 _ hmem] at hline
    cases hline
  unfold headerText
  constructor
  · rw [List.forall_mem_append, List.forall_mem_cons, List.forall_mem_append, List.forall_mem_cons]
    exact ⟨e.objectId_word.2, hblob.2, hblob.1, hblob.2, (isWord_decimal size).2⟩
  · simp only [List.mem_append, List.mem_cons, not_or]
    exact ⟨hnot _ e.objectId_word.1, by decide, hnot _ isWord_blob, by decide,
      hnot _ (isWord_decimal size).1⟩

theorem decodeAscii_headerText (e : TreeEntry) (size : Nat) :
    decodeAscii ((headerText e size).map UInt32.toUInt8) = some (headerText e size) := by
  apply decodeAscii_of_encodeAscii
  unfold encodeAscii
  rw [if_pos (headerText_ascii e size).1]

theorem not_mem_headerText (e : TreeEntry) (size : Nat) :
    (0xa : UInt8) ∉ (headerText e size).map UInt32.toUInt8 := by
  intro hmem
  have hdecode := decodeAscii_headerText e size
  unfold decodeAscii at hdecode
  split_ifs at hdecode
  have htext := Option.some.inj hdecode
  apply (headerText_ascii e size).2
  rw [← htext]
  exact List.mem_map.mpr ⟨0xa, hmem, rfl⟩

/-- Git writes records. -/
theorem isRecord_record (e : TreeEntry) (blob : List UInt8) :
    IsRecord e blob (record e blob.length blob) :=
  ⟨_, _, _, rfl, not_mem_headerText e _, decodeAscii_headerText e _, splitWords_headerText e _,
    parseInt_decimal _⟩

theorem reads_batchOutput (files : List (TreeEntry × List UInt8)) :
    Reads files (batchOutput files) := by
  induction files with
  | nil => exact .nil
  | cons f files ih => exact .cons (isRecord_record f.1 f.2) ih

/-- The first lines of bytes are the same where the bytes are. -/
theorem append_newline_inj {line line' r r' : List UInt8} (h : 0xa ∉ line) (h' : 0xa ∉ line')
    (heq : line ++ 0xa :: r = line' ++ 0xa :: r') : line = line' ∧ r = r' := by
  have hspan : ∀ l t : List UInt8, 0xa ∉ l →
      (l ++ 0xa :: t).takeWhile (· ≠ 0xa) = l := by
    intro l t hl
    have hne : ∀ x ∈ l, decide (x ≠ 0xa) = true := by
      intro x hx
      apply decide_eq_true
      rintro rfl
      exact hl hx
    rw [List.takeWhile_append_of_pos hne]
    simp
  have hline : line = line' := by rw [← hspan line r h, heq, hspan line' r' h']
  subst hline
  exact ⟨rfl, (List.cons.inj (List.append_cancel_left heq)).2⟩

/-- A record ends in one place. -/
theorem IsRecord.unique (h : IsRecord e blob bytes) (h' : IsRecord e blob' bytes')
    (heq : bytes ++ rest = bytes' ++ rest') : blob = blob' ∧ bytes = bytes' ∧ rest = rest' := by
  obtain ⟨line, text, size, rfl, hline, htext, hwords, hsize⟩ := h
  obtain ⟨line', text', size', rfl, hline', htext', hwords', hsize'⟩ := h'
  rw [List.append_assoc, List.append_assoc, List.cons_append, List.cons_append] at heq
  obtain ⟨rfl, htail⟩ := append_newline_inj hline hline' heq
  -- the same line says the same size
  obtain rfl := Option.some.inj (htext.symm.trans htext')
  rw [hwords] at hwords'
  obtain rfl : size = size' := by simpa using hwords'
  rw [hsize] at hsize'
  have hlength : blob.length = blob'.length := by exact_mod_cast Option.some.inj hsize'
  rw [List.append_assoc, List.append_assoc] at htail
  obtain ⟨rfl, hrest⟩ := List.append_inj htail hlength
  exact ⟨rfl, rfl, (List.cons.inj hrest).2⟩

/-- Bytes are read as records in one way, and nothing that goes on after them is. -/
theorem Reads.unique {files files' : List (TreeEntry × List UInt8)} {bytes bytes' : List UInt8}
    (h : Reads files bytes) (h' : Reads files' bytes')
    (hentries : files.map Prod.fst = files'.map Prod.fst) (hpre : bytes <+: bytes') :
    files = files' ∧ bytes = bytes' := by
  induction h generalizing files' bytes' with
  | nil =>
    cases h' with
    | nil => exact ⟨rfl, rfl⟩
    | cons _ _ => simp at hentries
  | @cons e blob bytes rest files hrecord _ ih =>
    cases h' with
    | nil => simp at hentries
    | @cons e' blob' bytes' rest' files' hrecord' hreads' =>
      rw [List.map_cons, List.map_cons, List.cons.injEq] at hentries
      obtain ⟨rfl, hentries⟩ := hentries
      obtain ⟨extra, hextra⟩ := hpre
      rw [List.append_assoc] at hextra
      obtain ⟨rfl, rfl, hrest⟩ := hrecord.unique hrecord' hextra
      obtain ⟨rfl, rfl⟩ := ih hreads' hentries ⟨extra, hrest⟩
      exact ⟨rfl, rfl⟩

/-! ### One step -/

theorem eq_of_take_two {header : List Str} {x y : Str} :
    header.length = 3 ∧ header.take 2 = [x, y] ↔ header = [x, y, header.getD 2 []] := by
  constructor
  · rintro ⟨hlength, htake⟩
    obtain ⟨a, b, c, rfl⟩ := List.length_eq_three.mp hlength
    simpa using htake
  · intro h
    rw [h]
    exact ⟨rfl, rfl⟩

/-- The first line that is read from an offset on. -/
theorem readHeader_eq_ok {m : Nat} (hm : m ≤ contents.length) {start size : Int} :
    readHeader contents m e = .ok (start, size) ↔
      ∃ line tail text word, contents.drop m = line ++ 0xa :: tail ∧ 0xa ∉ line ∧
        decodeAscii line = some text ∧ splitWords text = [e.objectId, lit "blob", word] ∧
        parseInt 10 word = some size ∧ start = ((m + line.length + 1 : Nat) : Int) := by
  simp only [readHeader, bind_eq_ok, orRaise_eq_ok, throw_eq, error_bind, ite_throw_eq_ok,
    Python.pure_eq, Except.ok.injEq, Prod.mk.injEq]
  by_cases hmem : 0xa ∈ contents.drop m
  · obtain ⟨line, tail, hdrop, hline⟩ := List.eq_append_cons_of_mem hmem
    have hfind := find_eq_add hm hdrop hline
    have hslice : slice contents m ((m + line.length : Nat) : Int) = line := by
      rw [slice_of_le hm, hdrop, Nat.add_sub_cancel_left, List.take_left]
    rw [hfind, hslice]
    constructor
    · rintro ⟨text, htext, hheader, size', hsize, rfl, rfl⟩
      have hwords : (splitWords text).length = 3 ∧
          (splitWords text).take 2 = [e.objectId, lit "blob"] := by
        simp only [not_or, not_not, ne_eq] at hheader
        exact hheader.2
      exact ⟨line, tail, text, _, hdrop, hline, htext, eq_of_take_two.mp hwords, hsize, by simp⟩
    · rintro ⟨line', tail', text, word, hdrop', hline', htext, hwords, hsize, rfl⟩
      obtain ⟨rfl, rfl⟩ := append_newline_inj hline hline' (hdrop.symm.trans hdrop')
      refine ⟨text, htext, ?_, size, ?_, by simp, rfl⟩
      · rw [hwords]
        rintro (hneg | hlength | htake)
        · omega
        · exact hlength rfl
        · exact htake rfl
      · rw [hwords]
        exact hsize
  · rw [find_eq_neg_one hm hmem]
    constructor
    · rintro ⟨text, -, hheader, -⟩
      exact absurd (Or.inl (by decide)) hheader
    · rintro ⟨line, tail, text, word, hdrop, -⟩
      exact absurd (hdrop ▸ by simp) hmem

/-- What follows a part of the output. -/
theorem drop_of_append {m : Nat} (hm : m ≤ contents.length)
    (hdrop : contents.drop m = bytes ++ rest) :
    m + bytes.length ≤ contents.length ∧ contents.drop (m + bytes.length) = rest := by
  have hlength := congrArg List.length hdrop
  rw [List.length_drop, List.length_append] at hlength
  refine ⟨by omega, ?_⟩
  rw [← List.drop_drop, hdrop, List.drop_left]

/-- The blob starts after the first line. -/
theorem drop_of_line {line tail : List UInt8} {m : Nat} (hm : m ≤ contents.length)
    (hdrop : contents.drop m = line ++ 0xa :: tail) :
    m + line.length + 1 ≤ contents.length ∧ contents.drop (m + line.length + 1) = tail := by
  have happend : line ++ 0xa :: tail = line ++ [0xa] ++ tail := by simp
  have hstart := drop_of_append hm (hdrop.trans happend)
  rwa [List.length_append, List.length_singleton, ← Nat.add_assoc] at hstart

/-- So many bytes from where a blob starts. -/
theorem slice_blob {tail : List UInt8} {k : Nat} (n : Nat) (hk : k ≤ contents.length)
    (htail : contents.drop k = tail) : slice contents k ((k : Int) + n) = tail.take n := by
  have hend : (k : Int) + n = ((k + n : Nat) : Int) := by push_cast; rfl
  rw [hend, slice_of_le hk, htail, Nat.add_sub_cancel_left]

/-- The byte after them. -/
theorem slice_newline {tail : List UInt8} {k n : Nat} (hk : k ≤ contents.length)
    (htail : contents.drop k = tail) (hn : n ≤ tail.length) :
    slice contents ((k : Int) + n + 1 - 1) ((k : Int) + n + 1) = (tail.drop n).take 1 := by
  have hlength : k + tail.length = contents.length := by
    rw [← htail, List.length_drop]
    omega
  have hstart : (k : Int) + n + 1 - 1 = ((k + n : Nat) : Int) := by push_cast; omega
  have hend : (k : Int) + n + 1 = ((k + n + 1 : Nat) : Int) := by push_cast; rfl
  rw [hstart, hend, slice_of_le (by omega), Nat.add_sub_cancel_left, ← htail, List.drop_drop]

/-- A step reads one record. -/
theorem readBlob_eq_ok {m : Nat} (hm : m ≤ contents.length) {offset : Int} :
    readBlob contents m e = .ok (blob, offset) ↔
      ∃ bytes rest, contents.drop m = bytes ++ rest ∧ IsRecord e blob bytes ∧
        offset = ((m + bytes.length : Nat) : Int) := by
  simp only [readBlob, bind_eq_ok, throw_eq, error_bind, ite_throw_eq_ok, Python.pure_eq,
    Except.ok.injEq, Prod.mk.injEq, Prod.exists, not_or, not_not, ne_eq]
  constructor
  · rintro ⟨start, size, hheader, ⟨hlength, hnewline⟩, rfl, rfl⟩
    obtain ⟨line, tail, text, word, hdrop, hline, htext, hwords, hsize, rfl⟩ :=
      (readHeader_eq_ok hm).mp hheader
    obtain ⟨hk, htail⟩ := drop_of_line hm hdrop
    -- a size below zero is not the length of anything
    obtain ⟨n, rfl⟩ := Int.eq_ofNat_of_zero_le (hlength ▸ Int.natCast_nonneg _ : 0 ≤ size)
    have hblob := slice_blob n hk htail
    rw [hblob] at hlength ⊢
    have hn : n ≤ tail.length := by
      rw [List.length_take] at hlength
      omega
    rw [slice_newline hk htail hn] at hnewline
    have hbytes : tail = tail.take n ++ 0xa :: (tail.drop n).drop 1 := by
      have hsplit := List.take_append_drop 1 (tail.drop n)
      rw [hnewline, List.singleton_append] at hsplit
      rw [hsplit, List.take_append_drop]
    refine ⟨line ++ 0xa :: (tail.take n ++ [0xa]), (tail.drop n).drop 1, ?_,
      ⟨line, text, word, rfl, hline, htext, hwords, ?_⟩, ?_⟩
    · rw [hdrop]
      conv_lhs => rw [hbytes]
      simp
    · rw [hsize, hlength]
    · rw [List.length_append, List.length_cons, List.length_append, List.length_singleton]
      omega
  · rintro ⟨bytes, rest, hdrop, ⟨line, text, word, rfl, hline, htext, hwords, hsize⟩, rfl⟩
    have hdrop' : contents.drop m = line ++ 0xa :: (blob ++ 0xa :: rest) := by
      rw [hdrop]
      simp
    obtain ⟨hk, htail⟩ := drop_of_line hm hdrop'
    refine ⟨_, _, (readHeader_eq_ok hm).mpr
      ⟨line, _, text, word, hdrop', hline, htext, hwords, hsize, rfl⟩, ?_⟩
    rw [slice_blob _ hk htail, slice_newline hk htail (by simp), List.take_left, List.drop_left]
    refine ⟨⟨rfl, rfl⟩, rfl, ?_⟩
    rw [List.length_append, List.length_cons, List.length_append, List.length_singleton]
    omega

/-! ### What is read -/

section

variable {σ : Type} {h : Handler Call Reply σ} {s s' : σ} {sha256 : Sha256} {p : Place}
  {progress progress' : Progress}

/-- A round of the loop that goes on has read a blob. -/
theorem readBlob_of_exec (hexec : exec h (exportEntry sha256 contents p progress e) s
    = (.ok progress', s')) :
    ∃ blob, readBlob contents progress.offset e = .ok (blob, progress'.offset) := by
  unfold exportEntry at hexec
  obtain ⟨⟨blob, offset⟩, s₁, hread, hexec⟩ := exec_bind_eq_ok hexec
  obtain ⟨_, s₂, -, hexec⟩ := exec_bind_eq_ok hexec
  obtain ⟨_, s₃, -, hexec⟩ := exec_bind_eq_ok hexec
  obtain ⟨_, s₄, -, hexec⟩ := exec_bind_eq_ok hexec
  obtain ⟨_, s₅, -, hexec⟩ := exec_bind_eq_ok hexec
  rw [exec_computed] at hread
  obtain rfl := Except.ok.inj (Prod.mk.inj hexec).1
  exact ⟨blob, (Prod.mk.inj hread).1⟩

/-- A loop that ends has read the records of its entries. -/
theorem reads_of_foldlM {entries : List TreeEntry} {m : Nat} (hm : m ≤ contents.length)
    (hoffset : progress.offset = m)
    (hexec : exec h (entries.foldlM (exportEntry sha256 contents p) progress) s
      = (.ok progress', s')) :
    ∃ files bytes rest, files.map Prod.fst = entries ∧ Reads files bytes ∧
      contents.drop m = bytes ++ rest ∧ progress'.offset = ((m + bytes.length : Nat) : Int) := by
  induction entries generalizing m progress s with
  | nil =>
    obtain rfl := Except.ok.inj (Prod.mk.inj hexec).1
    exact ⟨[], [], _, rfl, .nil, rfl, hoffset⟩
  | cons e entries ih =>
    rw [List.foldlM_cons] at hexec
    obtain ⟨progress₁, s₁, hstep, hexec⟩ := exec_bind_eq_ok hexec
    obtain ⟨blob, hread⟩ := readBlob_of_exec hstep
    rw [hoffset] at hread
    obtain ⟨bytes, rest, hdrop, hrecord, hoffset₁⟩ := (readBlob_eq_ok hm).mp hread
    obtain ⟨hm₁, hrest⟩ := drop_of_append hm hdrop
    obtain ⟨files, bytes', rest', rfl, hreads, hdrop', hoffset'⟩ := ih hm₁ hoffset₁ hexec
    refine ⟨(e, blob) :: files, bytes ++ bytes', rest', rfl, .cons hrecord hreads, ?_, ?_⟩
    · rw [hdrop, ← hrest, hdrop', List.append_assoc]
    · rw [hoffset', List.length_append, Nat.add_assoc]

end

section

variable {sha256 : Sha256} {git : Git} {commit : Str} {p : Place} {d d' : Disk}
  {entries : List TreeEntry} {listing : List UInt8} {metadata : Metadata}

theorem encodeAscii_batchInput (entries : List TreeEntry) :
    ∃ batch, encodeAscii (batchInput entries) = some batch := by
  have hascii : ∀ c ∈ batchInput entries, c < 0x80 := by
    intro c hc
    obtain ⟨e, -, hc⟩ := List.mem_flatMap.mp hc
    rcases List.mem_append.mp hc with hc | hc
    · exact e.objectId_word.2 c hc
    · obtain rfl := List.mem_singleton.mp hc
      decide
  unfold encodeAscii
  exact ⟨_, if_pos hascii⟩

/-- Git lists the entries of a commit, and answers the batch of their object IDs with `contents`. -/
def Answers (git : Git) (commit : Str) (entries : List TreeEntry) (contents : List UInt8) : Prop :=
  ∃ listing batch, git (lsTree commit) [] = .ok listing ∧ selectEntries listing = .ok entries ∧
    encodeAscii (batchInput entries) = some batch ∧ git catFile batch = .ok contents

/-- What comes after the two answers. -/
theorem exec_exportFiles (h : Answers git commit entries contents) :
    exec (reliable sha256 git) (exportFiles sha256 commit p) d
      = exec (reliable sha256 git) (do
          let progress ← entries.foldlM (exportEntry sha256 contents p)
            { offset := 0, hashes := .empty, modes := .empty }
          if progress.offset ≠ contents.length then throw (.snapshot .trailingData)
          return {
            commit
            files := progress.hashes.sorted strLe
            fileModes := progress.modes.sorted strLe : Metadata }) d := by
  obtain ⟨listing, batch, hls, hentries, hbatch, hcat⟩ := h
  have hlisting : exec (reliable sha256 git) (request (.git (lsTree commit) [])) d
      = (.ok listing, d) := by
    rw [exec_request, reliable, hls]
    rfl
  have htree : exec (reliable sha256 git) (treeEntries commit) d = (.ok entries, d) := by
    rw [treeEntries, exec_bind_ok hlisting, exec_computed, hentries]
  have hencode : exec (reliable sha256 git)
      (computed (orRaise (encodeAscii (batchInput entries)) .value)) d = (.ok batch, d) := by
    rw [exec_computed, hbatch]
    rfl
  have hcontents : exec (reliable sha256 git) (request (.git catFile batch)) d
      = (.ok contents, d) := by
    rw [exec_request, reliable, hcat]
    rfl
  rw [exportFiles, exec_bind_ok htree, exec_bind_ok hencode, exec_bind_ok hcontents]

/-- An export that ends has read all of the output as records of its entries. -/
theorem reads_of_exportFiles (h : Answers git commit entries contents)
    (hexec : exec (reliable sha256 git) (exportFiles sha256 commit p) d = (.ok metadata, d')) :
    ∃ files, files.map Prod.fst = entries ∧ Reads files contents := by
  rw [exec_exportFiles h] at hexec
  obtain ⟨progress, d₁, hloop, hexec⟩ := exec_bind_eq_ok hexec
  obtain ⟨files, bytes, rest, hfiles, hreads, hdrop, hoffset⟩ :=
    reads_of_foldlM (Nat.zero_le _) rfl hloop
  rw [List.drop_zero, Nat.zero_add] at *
  by_cases hend : progress.offset ≠ contents.length
  · rw [if_pos hend] at hexec
    cases hexec
  · have hlength : bytes.length = contents.length := by
      rw [not_not, hoffset] at hend
      exact_mod_cast hend
    have hnil : rest = [] := by
      have hsum := congrArg List.length hdrop
      rw [List.length_append] at hsum
      exact List.length_eq_zero_iff.mp (by omega)
    rw [hnil, List.append_nil] at hdrop
    exact ⟨files, hfiles, hdrop ▸ hreads⟩

/-! ### What is not read -/

/-- The output where the first lines of two adjacent records are exchanged. -/
def exchangedOutput (before : List (TreeEntry × List UInt8)) (f g : TreeEntry × List UInt8)
    (after : List (TreeEntry × List UInt8)) : List UInt8 :=
  batchOutput before ++ (record g.1 g.2.length f.2 ++ (record f.1 f.2.length g.2
    ++ batchOutput after))

/-- After records that Git writes come the records of the entries that are left. -/
theorem Reads.of_batchOutput {files known : List (TreeEntry × List UInt8)}
    {entries : List TreeEntry} {rest : List UInt8} (h : Reads files (batchOutput known ++ rest))
    (hentries : files.map Prod.fst = known.map Prod.fst ++ entries) :
    ∃ files', files'.map Prod.fst = entries ∧ Reads files' rest := by
  induction known generalizing files with
  | nil => exact ⟨files, hentries, h⟩
  | cons f known ih =>
    have hbytes : batchOutput (f :: known) ++ rest
        = record f.1 f.2.length f.2 ++ (batchOutput known ++ rest) := by
      rw [batchOutput, List.flatMap_cons, List.append_assoc]
      rfl
    rw [hbytes] at h
    generalize hall : record f.1 f.2.length f.2 ++ (batchOutput known ++ rest) = all at h
    cases h with
    | nil => simp at hentries
    | @cons e blob bytes rest' files hrecord hreads =>
      rw [List.map_cons, List.map_cons, List.cons_append, List.cons.injEq] at hentries
      obtain ⟨rfl, hentries⟩ := hentries
      obtain ⟨-, -, rfl⟩ := (isRecord_record f.1 f.2).unique hrecord hall
      exact ih hreads hentries

/-- A first line with another object ID is refused. -/
theorem not_reads_exchangedOutput {before after files : List (TreeEntry × List UInt8)}
    {f g : TreeEntry × List UInt8} (hids : f.1.objectId ≠ g.1.objectId)
    (hentries : files.map Prod.fst = (before ++ f :: g :: after).map Prod.fst) :
    ¬ Reads files (exchangedOutput before f g after) := by
  intro h
  rw [List.map_append, List.map_cons] at hentries
  obtain ⟨files', hfiles', h⟩ := h.of_batchOutput hentries
  generalize hall : record g.1 g.2.length f.2 ++ (record f.1 f.2.length g.2 ++ batchOutput after)
    = all at h
  cases h with
  | nil => simp at hfiles'
  | @cons e blob bytes rest files hrecord hreads =>
    rw [List.map_cons, List.cons.injEq] at hfiles'
    obtain ⟨rfl, -⟩ := hfiles'
    obtain ⟨line, text, size, rfl, hline, htext, hwords, -⟩ := hrecord
    rw [record, List.append_assoc, List.append_assoc, List.cons_append, List.cons_append] at hall
    obtain ⟨rfl, -⟩ := append_newline_inj (not_mem_headerText g.1 _) hline hall
    rw [decodeAscii_headerText, Option.some.injEq] at htext
    rw [← htext, splitWords_headerText, List.cons.injEq] at hwords
    exact hids hwords.1.symm

end

/-! ### What is written -/

/-- The path of an entry. -/
def TreeEntry.path (e : TreeEntry) : Path := (relative? e.name).getD []

/-- The file that is written for an entry. -/
def TreeEntry.file (e : TreeEntry) (blob : List UInt8) : File :=
  { content := blob, mode := if e.mode = lit "100755" then 0o755 else 0o644, readable := true }

theorem TreeEntry.path_spec (e : TreeEntry) :
    e.path ≠ [] ∧ posix e.path = e.name ∧ relative? e.name = some e.path := by
  obtain ⟨root, -, hinside⟩ := inside_of_checkedPath exists_posix_of_mem_INPUT_PATHS e.name_checked
  obtain ⟨p, hp, hname⟩ := exists_posix_of_inside hinside
  have hrelative : relative? e.name = some p := hname ▸ relative?_posix hp
  have hpath : e.path = p := by
    unfold path
    rw [hrelative]
    rfl
  rw [hpath]
  exact ⟨hp, hname, hrelative⟩

/-- A path on which another lies is the name that the other is below. -/
theorem TreeEntry.within_of_prefix {e e' : TreeEntry} (h : e.path <+: e'.path) :
    Within e.name e'.name := by
  obtain ⟨hne, hname, -⟩ := e.path_spec
  obtain ⟨-, hname', -⟩ := e'.path_spec
  obtain ⟨q, hq⟩ := h
  rw [← hname, ← hname', ← hq]
  by_cases hnil : q = []
  · left
    rw [hnil, List.append_nil]
  · right
    rw [posix_append hne hnil]
    exact ⟨posix q, by simp⟩

theorem splitName_posix {q : Path} {k : Component} : splitName (posix (q ++ [k])) = .ok (q, k) := by
  unfold splitName
  rw [relative?_posix (by simp)]
  simp

/-- The bits of a mode in Git. -/
theorem parseInt_mode : ∀ mode ∈ GIT_MODES, ∃ n, parseInt 8 mode = some n ∧
    n.toNat &&& 0o777 = if mode = lit "100755" then 0o755 else 0o644 := by
  intro mode hmode
  rcases List.mem_cons.mp hmode with rfl | hmode
  · exact ⟨0o100644, by decide, by decide⟩
  · obtain rfl := List.mem_singleton.mp hmode
    exact ⟨0o100755, by decide, by decide⟩

section

variable {sha256 : Sha256} {git : Git} {p : Place} {d : Disk} {tree : FileTree Component}

theorem attempt_change {f : FileTree Component → Except OsError (FileTree Component)}
    {tree' : FileTree Component} (hentry : d.entry p = some (.directory tree))
    (hf : f tree = .ok tree') :
    attempt d (d.change p f) = (.ok (), d.put p (some (.directory tree'))) := by
  unfold Disk.change
  rw [hentry]
  dsimp only
  rw [hf]
  rfl

variable (sha256 git) in
/-- A round writes the file of its entry. -/
theorem exec_exportEntry {known : Path → Option File} {progress : Progress} {offset : Int}
    (hentry : d.entry p = some (.directory tree)) (ht : tree.Holds known)
    (hfree : ∀ q f, known q = some f → ¬ q <+: e.path ∧ ¬ e.path <+: q)
    (hread : readBlob contents progress.offset e = .ok (blob, offset)) :
    ∃ tree', exec (reliable sha256 git) (exportEntry sha256 contents p progress e) d
        = (.ok {
            offset
            hashes := progress.hashes.set e.name (sha256.hexdigest blob)
            modes := progress.modes.set e.name e.mode }, d.put p (some (.directory tree'))) ∧
      tree'.Holds fun q => if q = e.path then some (e.file blob) else known q := by
  obtain ⟨hne, hname, -⟩ := e.path_spec
  obtain ⟨q, k, hpath⟩ : ∃ q k, e.path = q ++ [k] :=
    ⟨e.path.dropLast, e.path.getLast hne, (List.dropLast_append_getLast hne).symm⟩
  rw [hpath] at hname hfree ⊢
  have hsplit : splitName e.name = .ok (q, k) := hname ▸ splitName_posix
  obtain ⟨n, hmode, hbits⟩ := parseInt_mode e.mode e.mode_mem
  obtain ⟨t₁, t₂, t₃, hmk, hwrite, hchmod, hholds⟩ := ht.exists_writeFile hfree blob
    (n.toNat &&& 0o777)
  have hput : ∀ tree, (d.put p (some (.directory tree))).entry p = some (.directory tree) :=
    fun _ => Disk.entry_put (Disk.hasParent_of_entry hentry)
  have hfirst : exec (reliable sha256 git) (computed (readBlob contents progress.offset e)) d
      = (.ok (blob, offset), d) := by rw [exec_computed, hread]
  have hparents : exec (reliable sha256 git) (request (.makeParents p e.name)) d
      = (.ok (), d.put p (some (.directory t₁))) := by
    rw [exec_request, reliable, hsplit, ok_bind, attempt_change hentry hmk]
  have hbytes : exec (reliable sha256 git) (request (.writeBytes p e.name blob))
      (d.put p (some (.directory t₁))) = (.ok (), d.put p (some (.directory t₂))) := by
    rw [exec_request, reliable, hsplit, ok_bind, attempt_change (hput t₁) hwrite, Disk.put_put]
  have hbits' : exec (reliable sha256 git) (computed (orRaise (parseInt 8 e.mode) .value))
      (d.put p (some (.directory t₂))) = (.ok n, d.put p (some (.directory t₂))) := by
    rw [exec_computed, hmode]
    rfl
  have hmode' : exec (reliable sha256 git) (request (.chmod p e.name (n.toNat &&& 0o777)))
      (d.put p (some (.directory t₂))) = (.ok (), d.put p (some (.directory t₃))) := by
    rw [exec_request, reliable, hsplit, ok_bind, attempt_change (hput t₂) hchmod, Disk.put_put]
  refine ⟨t₃, ?_, ?_⟩
  · rw [exportEntry, exec_bind_ok hfirst, exec_bind_ok hparents, exec_bind_ok hbytes,
      exec_bind_ok hbits', exec_bind_ok hmode']
    rfl
  · unfold TreeEntry.file
    rw [← hbits]
    exact hholds

/-- The tree is made of the files of the entries. -/
def Exported (tree : FileTree Component) (files : List (TreeEntry × List UInt8)) : Prop :=
  ∃ known, tree.Holds known ∧
    ∀ q f, known q = some f ↔ ∃ x ∈ files, x.1.path = q ∧ x.1.file x.2 = f

/-- No name is that of another file, nor below it, as in any tree of files. -/
def Separate (entries : List TreeEntry) : Prop :=
  entries.Pairwise fun a b => ¬ Within a.name b.name ∧ ¬ Within b.name a.name

instance (entries : List TreeEntry) : Decidable (Separate entries) :=
  inferInstanceAs (Decidable (List.Pairwise _ _))

/-- What the loop has recorded after these files. -/
structure Recorded (sha256 : Sha256) (files : List (TreeEntry × List UInt8)) (offset : Int)
    (progress : Progress) : Prop where
  offset : progress.offset = offset
  hashes : progress.hashes.items = files.map fun x => (x.1.name, sha256.hexdigest x.2)
  modes : progress.modes.items = files.map fun x => (x.1.name, x.1.mode)

theorem Exported.add {files : List (TreeEntry × List UInt8)} {known : Path → Option File}
    {tree' : FileTree Component}
    (hknown : ∀ q f, known q = some f ↔ ∃ x ∈ files, x.1.path = q ∧ x.1.file x.2 = f)
    (hapart : ∀ x ∈ files, x.1.path ≠ e.path)
    (ht : tree'.Holds fun q => if q = e.path then some (e.file blob) else known q) :
    Exported tree' (files ++ [(e, blob)]) := by
  refine ⟨_, ht, fun q f => ?_⟩
  simp only [List.mem_append, List.mem_singleton, or_and_right, exists_or, exists_eq_left]
  split_ifs with hq
  · subst hq
    rw [Option.some.injEq]
    constructor
    · exact fun hf => .inr ⟨rfl, hf⟩
    · rintro (⟨x, hx, hpath, -⟩ | ⟨-, hf⟩)
      · exact absurd hpath (hapart x hx)
      · exact hf
  · rw [hknown]
    constructor
    · exact .inl
    · rintro (h | ⟨hpath, -⟩)
      · exact h
      · exact absurd hpath.symm hq

theorem Recorded.add {files : List (TreeEntry × List UInt8)} {offset offset' : Int}
    {progress : Progress} (h : Recorded sha256 files offset progress)
    (hnew : ∀ x ∈ files, x.1.name ≠ e.name) :
    Recorded sha256 (files ++ [(e, blob)]) offset' {
      offset := offset'
      hashes := progress.hashes.set e.name (sha256.hexdigest blob)
      modes := progress.modes.set e.name e.mode } := by
  have hhashes : e.name ∉ progress.hashes.keys := by
    unfold Dict.keys
    rw [h.hashes, List.map_map]
    intro hmem
    obtain ⟨x, hx, hname⟩ := List.mem_map.mp hmem
    exact hnew x hx hname
  have hmodes : e.name ∉ progress.modes.keys := by
    unfold Dict.keys
    rw [h.modes, List.map_map]
    intro hmem
    obtain ⟨x, hx, hname⟩ := List.mem_map.mp hmem
    exact hnew x hx hname
  constructor
  · rfl
  · rw [Dict.items_set hhashes, h.hashes, List.map_append]
    rfl
  · rw [Dict.items_set hmodes, h.modes, List.map_append]
    rfl

variable (sha256 git) in
/-- A round adds a file that is apart from those before. -/
theorem exec_exportEntry_add {files : List (TreeEntry × List UInt8)} {m : Nat}
    (hm : m ≤ contents.length) {progress : Progress}
    (hentry : d.entry p = some (.directory tree)) (htree : Exported tree files)
    (hrecorded : Recorded sha256 files m progress)
    (hapart : ∀ x ∈ files, ¬ Within x.1.name e.name ∧ ¬ Within e.name x.1.name)
    (hdrop : contents.drop m = bytes ++ rest) (hrecord : IsRecord e blob bytes) :
    ∃ tree' progress', exec (reliable sha256 git) (exportEntry sha256 contents p progress e) d
        = (.ok progress', d.put p (some (.directory tree'))) ∧
      Exported tree' (files ++ [(e, blob)]) ∧
      Recorded sha256 (files ++ [(e, blob)]) ((m + bytes.length : Nat) : Int) progress' := by
  obtain ⟨known, hholds, hknown⟩ := htree
  have hfree : ∀ q f, known q = some f → ¬ q <+: e.path ∧ ¬ e.path <+: q := by
    intro q f hq
    obtain ⟨x, hx, rfl, -⟩ := (hknown q f).mp hq
    exact ⟨fun h => (hapart x hx).1 (TreeEntry.within_of_prefix h),
      fun h => (hapart x hx).2 (TreeEntry.within_of_prefix h)⟩
  have hread : readBlob contents progress.offset e
      = .ok (blob, ((m + bytes.length : Nat) : Int)) := by
    rw [hrecorded.offset]
    exact (readBlob_eq_ok hm).mpr ⟨bytes, rest, hdrop, hrecord, rfl⟩
  obtain ⟨tree', hexec, hholds'⟩ := exec_exportEntry sha256 git hentry hholds hfree hread
  refine ⟨tree', _, hexec, Exported.add hknown (fun x hx hpath => ?_) hholds',
    hrecorded.add fun x hx hname => (hapart x hx).1 (.inl hname.symm)⟩
  exact (hapart x hx).1 (TreeEntry.within_of_prefix (hpath ▸ List.prefix_refl _))

variable (sha256 git) in
/-- The loop writes and records what it reads. -/
theorem exec_foldlM_exportEntry {done files : List (TreeEntry × List UInt8)} {m : Nat}
    (hm : m ≤ contents.length) {progress : Progress}
    (hentry : d.entry p = some (.directory tree)) (htree : Exported tree done)
    (hrecorded : Recorded sha256 done m progress)
    (hseparate : Separate ((done ++ files).map Prod.fst)) (hdrop : contents.drop m = bytes)
    (hreads : Reads files bytes) :
    ∃ tree' progress', exec (reliable sha256 git)
        ((files.map Prod.fst).foldlM (exportEntry sha256 contents p) progress) d
        = (.ok progress', d.put p (some (.directory tree'))) ∧
      Exported tree' (done ++ files) ∧
      Recorded sha256 (done ++ files) contents.length progress' := by
  induction hreads generalizing d tree done m progress with
  | nil =>
    have hend : m = contents.length := by
      have hlength := List.drop_eq_nil_iff.mp hdrop
      omega
    refine ⟨tree, progress, ?_, by rwa [List.append_nil], by rwa [List.append_nil, ← hend]⟩
    rw [← hentry, Disk.put_entry]
    rfl
  | @cons e blob bytes rest files hrecord _ ih =>
    have happend : done ++ (e, blob) :: files = done ++ [(e, blob)] ++ files := by simp
    -- the new file is apart from all that have been written
    have hapart : ∀ x ∈ done, ¬ Within x.1.name e.name ∧ ¬ Within e.name x.1.name := by
      intro x hx
      unfold Separate at hseparate
      rw [List.map_append, List.pairwise_append] at hseparate
      exact hseparate.2.2 _ (List.mem_map_of_mem hx) _ (List.mem_cons_self ..)
    obtain ⟨tree₁, progress₁, hexec, hexported, hrecorded₁⟩ := exec_exportEntry_add sha256 git hm
      hentry htree hrecorded hapart hdrop hrecord
    obtain ⟨hm₁, hrest⟩ := drop_of_append hm hdrop
    obtain ⟨tree', progress', hexec', hexported', hrecorded'⟩ := ih hm₁
      (Disk.entry_put (Disk.hasParent_of_entry hentry)) hexported hrecorded₁ (happend ▸ hseparate)
      hrest
    refine ⟨tree', progress', ?_, happend ▸ hexported', happend ▸ hrecorded'⟩
    rw [List.map_cons, List.foldlM_cons, exec_bind_ok hexec, hexec', Disk.put_put]

variable {commit : Str} {files : List (TreeEntry × List UInt8)}

/-- Metadata that records the digests and the modes of these files. -/
structure Metadata.Records (metadata : Metadata) (sha256 : Sha256) (commit : Str)
    (exported : List (TreeEntry × List UInt8)) : Prop where
  commit : metadata.commit = commit
  files : ∀ name digest, metadata.files.get? name = some digest ↔
    ∃ x ∈ exported, x.1.name = name ∧ sha256.hexdigest x.2 = digest
  fileModes : ∀ name mode, metadata.fileModes.get? name = some mode ↔
    ∃ x ∈ exported, x.1.name = name ∧ x.1.mode = mode

variable (sha256) in
/-- Output that is read as the records of files is exported as these files. -/
theorem exportFiles_of_reads (h : Answers git commit (files.map Prod.fst) contents)
    (hreads : Reads files contents) (hseparate : Separate (files.map Prod.fst))
    (hentry : d.entry p = some (.directory .empty)) :
    ∃ tree metadata, exec (reliable sha256 git) (exportFiles sha256 commit p) d
        = (.ok metadata, d.put p (some (.directory tree))) ∧
      Exported tree files ∧ metadata.Records sha256 commit files := by
  have hstart : Exported (.empty : FileTree Component) [] :=
    ⟨_, Holds.empty, fun q f => by simp⟩
  have hnone : Recorded sha256 [] ((0 : Nat) : Int)
      { offset := 0, hashes := .empty, modes := .empty } := ⟨rfl, rfl, rfl⟩
  obtain ⟨tree, progress, hloop, htree, hrecorded⟩ := exec_foldlM_exportEntry sha256 git
    (Nat.zero_le _) hentry hstart hnone hseparate rfl hreads
  refine ⟨tree, {
    commit
    files := progress.hashes.sorted strLe
    fileModes := progress.modes.sorted strLe }, ?_, htree, ?_⟩
  · rw [exec_exportFiles h, exec_bind_ok hloop, if_neg fun hne => hne hrecorded.offset]
    rfl
  · constructor
    · rfl
    · intro name digest
      rw [Dict.get?_sorted, Dict.get?_eq_some, hrecorded.hashes, List.mem_map]
      simp only [Prod.mk.injEq, List.nil_append]
    · intro name mode
      rw [Dict.get?_sorted, Dict.get?_eq_some, hrecorded.modes, List.mem_map]
      simp only [Prod.mk.injEq, List.nil_append]

/-- The nodes that are files are those of the entries, by their names. -/
theorem Exported.node?_eq_file (h : Exported tree files) {q : Path} {f : File} :
    tree.node? q = some (.file f) ↔ ∃ x ∈ files, posix q = x.1.name ∧ x.1.file x.2 = f := by
  obtain ⟨known, hholds, hknown⟩ := h
  rw [hholds.file, hknown]
  apply exists_congr
  intro x
  apply and_congr_right
  intro _
  apply and_congr_left
  intro _
  obtain ⟨hne, hname, -⟩ := x.1.path_spec
  constructor
  · rintro rfl
    exact hname
  · intro hq
    have hqne : q ≠ [] := by
      rintro rfl
      exact posix_ne_nil hne (hname.trans hq.symm)
    exact posix_injective hne hqne (hname.trans hq.symm)

/-- Git's batch output is split at exactly the right bytes: the files are written and recorded as
they are in it.  A part of it, more than it, or first lines of adjacent records with different
object IDs that are exchanged, are refused. -/
theorem exportFiles_splits (sha256 : Sha256) (git : Git) (commit : Str) (p : Place) (d : Disk)
    (files : List (TreeEntry × List UInt8)) (contents : List UInt8)
    (h : Answers git commit (files.map Prod.fst) contents) :
    (contents = batchOutput files → Separate (files.map Prod.fst) →
      d.entry p = some (.directory .empty) →
      ∃ tree metadata, exec (reliable sha256 git) (exportFiles sha256 commit p) d
          = (.ok metadata, d.put p (some (.directory tree))) ∧
        (∀ q f, tree.node? q = some (.file f) ↔
          ∃ x ∈ files, posix q = x.1.name ∧ x.1.file x.2 = f) ∧
        metadata.Records sha256 commit files) ∧
    ((contents <+: batchOutput files ∧ contents ≠ batchOutput files) ∨
      (∃ extra, extra ≠ [] ∧ contents = batchOutput files ++ extra) ∨
      (∃ before f g after, files = before ++ f :: g :: after ∧ f.1.objectId ≠ g.1.objectId ∧
        contents = exchangedOutput before f g after) →
      ∃ error, (exec (reliable sha256 git) (exportFiles sha256 commit p) d).1 = .error error) := by
  constructor
  · rintro rfl hseparate hentry
    obtain ⟨tree, metadata, hexec, htree, hrecords⟩ := exportFiles_of_reads sha256 h
      (reads_batchOutput files) hseparate hentry
    exact ⟨tree, metadata, hexec, fun q f => htree.node?_eq_file, hrecords⟩
  · intro hcontents
    rcases hexec : exec (reliable sha256 git) (exportFiles sha256 commit p) d with
      ⟨e | metadata, d'⟩
    · exact ⟨e, rfl⟩
    · exfalso
      obtain ⟨files', hfiles', hreads⟩ := reads_of_exportFiles h hexec
      rcases hcontents with ⟨hpre, hne⟩ | ⟨extra, hextra, rfl⟩ |
        ⟨before, f, g, after, rfl, hids, rfl⟩
      · exact hne (hreads.unique (reads_batchOutput files) hfiles' hpre).2
      · have hsame := ((reads_batchOutput files).unique hreads hfiles'.symm
          (List.prefix_append ..)).2
        exact hextra (List.self_eq_append_right.mp hsame)
      · exact not_reads_exchangedOutput hids hfiles' hreads

end

/-! ### Samples -/

/-- What Git lists for entries. -/
def lsOutput (entries : List TreeEntry) : List UInt8 :=
  entries.flatMap fun e => (e.mode ++ 0x20 :: (lit "blob" ++ 0x20 :: e.objectId)).map UInt32.toUInt8
    ++ 0x9 :: ((encodeUtf8 e.name).getD [] ++ [0])

/-- Git that lists these entries, and answers with `contents` when asked for their blobs. -/
def answering (entries : List TreeEntry) (contents : List UInt8) : Git := fun args _ =>
  if args = catFile then .ok contents else .ok (lsOutput entries)

theorem answers_answering {commit : Str} {entries : List TreeEntry} {contents : List UInt8}
    (h : selectEntries (lsOutput entries) = .ok entries) :
    Answers (answering entries contents) commit entries contents := by
  obtain ⟨batch, hbatch⟩ := encodeAscii_batchInput entries
  refine ⟨lsOutput entries, batch, ?_, h, hbatch, if_pos rfl⟩
  apply if_neg
  intro hargs
  exact absurd (List.cons.inj hargs).1 (by decide)

/-- A file of its own at each root, the second of which is executable. -/
def rootEntries : List TreeEntry :=
  have hroots : ∀ root ∈ INPUT_PATHS, checkedPath root INPUT_PATHS = .ok root ∧
      ∀ c ∈ root, c.isValidChar := by decide
  INPUT_PATHS.pmap (fun root hroot =>
    { name := root
      mode := if root = lit "peios/rust/peios-uapi" then lit "100755" else lit "100644"
      objectId := lit "0"
      name_checked := hroot.1
      name_valid := hroot.2
      mode_mem := by
        split_ifs
        · decide
        · decide
      objectId_word := by decide }) hroots

/-- SHA-256 on the contents of the samples, most of which are empty. -/
def sampleSha256 : Sha256 :=
  { hexdigest := fun b =>
      if b = (lit "a").map UInt32.toUInt8 then
        lit "ca978112ca1bbdcafac231b39a23dc4da786eff8147c4e72b9807785afee48bb"
      else if b = (lit "a\nb").map UInt32.toUInt8 then
        lit "7e18f737311b2dc3b2f269dd78396b0351f14fb66efa879f768cb23181883c78"
      else if b = (lit "\n0 blob 12\nb").map UInt32.toUInt8 then
        lit "6c0a0e2e7b51eac39cfbd60b578b0757ceccf4d4c0b681012eb5aa1b335f8c64"
      else lit "e3b0c44298fc1c149afbf4c8996fb92427ae41e4649b934ca495991b7852b855"
    isDigest := by
      intro b
      split_ifs
      · decide
      · decide
      · decide
      · decide }

/-- A complete object ID. -/
def sampleCommit : Str := .replicate 40 0x30

/-- A directory for the export, without entries. -/
def stagingDisk : Disk :=
  { current := none, temporary := some { staging := some (.directory .empty), previous := none } }

/-- The files of `rootEntries`, where the first two have these contents. -/
def rootFiles (first second : String) : List (TreeEntry × List UInt8) :=
  rootEntries.zip ((lit first).map UInt32.toUInt8 :: (lit second).map UInt32.toUInt8
    :: .replicate 5 [])

/-- A file that lies below another one. -/
def nestedFiles : List (TreeEntry × List UInt8) :=
  rootFiles "" "" ++ [({
    name := lit "include/uapi/pkm/a"
    mode := lit "100644"
    objectId := lit "0"
    name_checked := by decide
    name_valid := by decide
    mode_mem := by decide
    objectId_word := by decide }, [])]

/-- The run that exports the entries when Git answers with `contents`. -/
def sampleExport (entries : List TreeEntry) (contents : List UInt8) :
    Except PyError Metadata × Disk :=
  exec (reliable sampleSha256 (answering entries contents))
    (exportFiles sampleSha256 sampleCommit .staging) stagingDisk

theorem selectEntries_lsOutput : selectEntries (lsOutput rootEntries) = .ok rootEntries := by
  decide +kernel

theorem map_rootFiles (first second : String) :
    (rootFiles first second).map Prod.fst = rootEntries := by
  apply List.map_fst_zip
  simp [rootEntries, INPUT_PATHS, SOURCE_PATHS, LICENSE_PATHS]

theorem answers_rootFiles (first second : String) (contents : List UInt8) :
    Answers (answering rootEntries contents) sampleCommit
      ((rootFiles first second).map Prod.fst) contents := by
  rw [map_rootFiles]
  exact answers_answering selectEntries_lsOutput

theorem separate_rootFiles (first second : String) :
    Separate ((rootFiles first second).map Prod.fst) := by
  rw [map_rootFiles]
  decide +kernel

theorem exportFiles_splits_rootFiles :
    (∃ tree metadata, sampleExport rootEntries (batchOutput (rootFiles "a\nb" ""))
        = (.ok metadata, stagingDisk.put .staging (some (.directory tree))) ∧
      (∀ q f, tree.node? q = some (.file f) ↔
        ∃ x ∈ rootFiles "a\nb" "", posix q = x.1.name ∧ x.1.file x.2 = f) ∧
      metadata.Records sampleSha256 sampleCommit (rootFiles "a\nb" "")) ∧
    ∃ error, (sampleExport rootEntries (batchOutput (rootFiles "a\nb" "") ++ [0])).1
      = .error error :=
  ⟨(exportFiles_splits sampleSha256 _ sampleCommit .staging stagingDisk (rootFiles "a\nb" "") _
      (answers_rootFiles "a\nb" "" _)).1 rfl (separate_rootFiles "a\nb" "") rfl,
    (exportFiles_splits sampleSha256 _ sampleCommit .staging stagingDisk (rootFiles "a\nb" "") _
      (answers_rootFiles "a\nb" "" _)).2 (.inr (.inl ⟨[0], by decide, rfl⟩))⟩

/-- Exchanged first lines of different entries with one object ID may be read, as other files.
Files with different names may not be written, if one lies below another. -/
theorem exportFiles_exchanged_and_nested :
    (∃ f g after, rootFiles "a\n0 blob 12\n" "b" = f :: g :: after ∧ f.1 ≠ g.1 ∧
      (sampleExport rootEntries (exchangedOutput [] f g after)).1.isOk = true) ∧
    (nestedFiles.map fun x => x.1.name).Nodup ∧
      (sampleExport (nestedFiles.map Prod.fst) (batchOutput nestedFiles)).1.isOk = false := by
  refine ⟨⟨_, _, _, rfl, by decide, ?_⟩, by decide +kernel, by decide +kernel⟩
  unfold sampleExport
  rw [exec_exportFiles (answers_answering selectEntries_lsOutput)]
  decide +kernel

end KernelInputs
