import Mathlib.Data.List.Forall2
import Peios.Registry.Watch

/-!
# Correctness of `parse_watch_events`

`WatchRecord` is the wire grammar: a type, a name, and an extension that is absent or holds a list
of components, with the bounds that make the length fields fit.  `parseWatchEvents_grammar` says
that the decoder accepts exactly the concatenations of records and returns their events, and that
it answers `EINVAL` for every other buffer.

Each of the three loops gets the same three lemmas: what one round computes, with every range in
bounds (`…_succ`); that it reads an encoding back (`…_encode`, completeness); and that what it
accepts is an encoding (`…_sound`).
-/

namespace Peios.Registry

open ByteString

/-! ### The grammar -/

/-- A name the grammar admits: no NUL, and a length that fits its `u16` field. -/
def IsComponent (c : Bytes) : Prop := 0 ∉ c ∧ c.length < 2 ^ 16

/-- A path component on the wire: `len: u16`, then the bytes. -/
def encodeComponent (c : Bytes) : Bytes := leBytes 2 c.length ++ c

/-- A record's extension on the wire: nothing, or `depth: u16` and the components. -/
def encodeExtension : Option (List Bytes) → Bytes
  | none => []
  | some cs => leBytes 2 cs.length ++ cs.flatMap encodeComponent

/-- An extension the grammar admits. -/
def IsExtension (ext : Option (List Bytes)) : Prop :=
  ∀ cs, ext = some cs → cs.length < 2 ^ 16 ∧ ∀ c ∈ cs, IsComponent c

/-- The code that stands for an event type on the wire. -/
inductive WatchEventType.HasCode : WatchEventType → UInt16 → Prop where
  | valueSet : HasCode valueSet 1
  | valueDeleted : HasCode valueDeleted 2
  | subkeyCreated : HasCode subkeyCreated 3
  | subkeyDeleted : HasCode subkeyDeleted 4
  | securityDescriptorChanged : HasCode securityDescriptorChanged 5
  | keyDeleted : HasCode keyDeleted 6
  | overflow : HasCode overflow 7
  /-- A code that means nothing else is kept. -/
  | other {raw : UInt16} : raw = 0 ∨ 7 < raw → HasCode (other raw) raw

theorem WatchEventType.hasCode_iff {type : WatchEventType} {raw : UInt16} :
    type.HasCode raw ↔ fromRaw raw = type := by
  constructor
  · intro h
    cases h with
    | other h =>
      have hraw : raw.toNat = 0 ∨ 7 < raw.toNat := by
        rcases h with rfl | h
        · exact .inl rfl
        · exact .inr (UInt16.lt_iff_toNat_lt.mp h)
      unfold fromRaw
      split <;> grind
    | _ => rfl
  · rintro rfl
    have hcode : ∀ n : UInt16, raw.toNat = n.toNat → raw = n := fun n => UInt16.toNat_inj.mp
    unfold fromRaw
    split
    · exact hcode 1 ‹_› ▸ .valueSet
    · exact hcode 2 ‹_› ▸ .valueDeleted
    · exact hcode 3 ‹_› ▸ .subkeyCreated
    · exact hcode 4 ‹_› ▸ .subkeyDeleted
    · exact hcode 5 ‹_› ▸ .securityDescriptorChanged
    · exact hcode 6 ‹_› ▸ .keyDeleted
    · exact hcode 7 ‹_› ▸ .overflow
    · refine .other ?_
      rw [UInt16.lt_iff_toNat_lt, ← UInt16.toNat_inj]
      show raw.toNat = 0 ∨ 7 < raw.toNat
      grind

/-- A watch record. -/
structure WatchRecord where
  /-- The event type code. -/
  type : UInt16
  /-- The value or subkey name. -/
  name : Bytes
  /-- The subtree path, when there is one. -/
  extension : Option (List Bytes)
  name_wf : IsComponent name
  extension_wf : IsExtension extension
  /-- The record's length fits its `u32` field. -/
  length_lt : WATCH_EVENT_MIN_SIZE + name.length + (encodeExtension extension).length < 2 ^ 32

namespace WatchRecord

/-- A record's header on the wire: `total_len: u32`, `type: u16`, `name_len: u16`. -/
def header (r : WatchRecord) : Bytes :=
  leBytes 4 (WATCH_EVENT_MIN_SIZE + r.name.length + (encodeExtension r.extension).length)
    ++ (leBytes 2 r.type.toNat ++ leBytes 2 r.name.length)

/-- A record on the wire. -/
def encode (r : WatchRecord) : Bytes := r.header ++ (r.name ++ encodeExtension r.extension)

/-- The event that the decoder makes of a record. -/
def event (r : WatchRecord) : WatchEvent :=
  { eventType := .fromRaw r.type, name := r.name, path := r.extension.getD [] }

/-- The event says what the record does. -/
structure Gives (r : WatchRecord) (ev : WatchEvent) : Prop where
  eventType : ev.eventType.HasCode r.type
  name : ev.name = r.name
  /-- Without an extension the path is empty, as it is for one that holds no component. -/
  path : ev.path = r.extension.getD []

theorem gives_iff {r : WatchRecord} {ev : WatchEvent} : r.Gives ev ↔ ev = r.event := by
  constructor
  · rintro ⟨htype, hname, hpath⟩
    obtain ⟨eventType, name, path⟩ := ev
    obtain rfl : .fromRaw r.type = eventType := WatchEventType.hasCode_iff.mp htype
    obtain rfl : name = r.name := hname
    obtain rfl : path = r.extension.getD [] := hpath
    rfl
  · rintro rfl
    exact ⟨WatchEventType.hasCode_iff.mpr rfl, rfl, rfl⟩

theorem forall₂_gives_iff {rs : List WatchRecord} {evs : List WatchEvent} :
    List.Forall₂ Gives rs evs ↔ evs = rs.map event := by
  have hgives : Gives = fun r ev => event r = ev := by
    funext r ev
    exact propext (gives_iff.trans eq_comm)
  rw [hgives, ← List.forall₂_map_left_iff, List.forall₂_eq_eq_eq, eq_comm]

theorem length_header (r : WatchRecord) : r.header.length = 8 := by
  simp only [header, List.length_append, length_leBytes]

theorem length_encode (r : WatchRecord) :
    r.encode.length = WATCH_EVENT_MIN_SIZE + r.name.length
      + (encodeExtension r.extension).length := by
  rw [encode, List.length_append, length_header, List.length_append, WATCH_EVENT_MIN_SIZE,
    Nat.add_assoc]

end WatchRecord

/-! ### Fixed-width fields -/

/-- The field in front of a buffer, when it is an encoding of that width. -/
theorem take_leBytes (n v : Nat) (b : Bytes) : (leBytes n v ++ b).take n = leBytes n v :=
  List.take_left' (length_leBytes n v)

theorem drop_leBytes (n v : Nat) (b : Bytes) : (leBytes n v ++ b).drop n = b :=
  List.drop_left' (length_leBytes n v)

/-- The first `n` bytes of a buffer are the encoding of the number they hold. -/
theorem leBytes_take {n : Nat} {b : Bytes} (h : n ≤ b.length) :
    leBytes n (ofLeBytes (b.take n)) = b.take n := by
  have hb := leBytes_ofLeBytes (b.take n)
  rwa [List.length_take_of_le h] at hb

theorem ofLeBytes_take_lt (n : Nat) (b : Bytes) : ofLeBytes (b.take n) < 256 ^ n :=
  lt_of_lt_of_le (ofLeBytes_lt _)
    (Nat.pow_le_pow_right (by norm_num) (List.length_take_le n b))

/-! ### Components -/

theorem decodeWatchComponent_eq (bytes : Bytes) :
    decodeWatchComponent bytes = if 0 ∈ bytes then .error (.errno EINVAL) else .ok bytes := by
  rw [decodeWatchComponent, reject_bind]
  rfl

/-- One round of the component loop. -/
theorem parseWatchPath_loop_succ (depth : Nat) (ext : Bytes) (path : List Bytes) :
    parseWatchPath.loop (depth + 1) ext path =
      if ext.length < 2 then .error (.errno EINVAL)
      else if (ext.drop 2).length < ofLeBytes (ext.take 2) then .error (.errno EINVAL)
      else if 0 ∈ (ext.drop 2).take (ofLeBytes (ext.take 2)) then .error (.errno EINVAL)
      else parseWatchPath.loop depth ((ext.drop 2).drop (ofLeBytes (ext.take 2)))
        (path ++ [(ext.drop 2).take (ofLeBytes (ext.take 2))]) := by
  rw [parseWatchPath.loop, reject_bind, WATCH_COMPONENT_LEN_FIELD]
  by_cases h2 : ext.length < 2
  · rw [if_pos h2, if_pos h2]
  rw [if_neg h2, if_neg h2, readLe_of_le (by omega), ok_bind, sliceFrom_of_le (by omega), ok_bind,
    reject_bind, List.drop_zero]
  by_cases hlen : (ext.drop 2).length < ofLeBytes (ext.take 2)
  · rw [if_pos hlen, if_pos hlen]
  rw [if_neg hlen, if_neg hlen, sliceTo_of_le (by omega), ok_bind, decodeWatchComponent_eq]
  by_cases h0 : 0 ∈ (ext.drop 2).take (ofLeBytes (ext.take 2))
  · rw [if_pos h0, if_pos h0, error_bind]
  · rw [if_neg h0, if_neg h0, ok_bind, sliceFrom_of_le (by omega), ok_bind]

theorem parseWatchPath_loop_encode (cs : List Bytes) (hcs : ∀ c ∈ cs, IsComponent c)
    (rest : Bytes) (path : List Bytes) :
    parseWatchPath.loop cs.length (cs.flatMap encodeComponent ++ rest) path
      = .ok (rest, path ++ cs) := by
  induction cs generalizing path with
  | nil => simp [parseWatchPath.loop]; rfl
  | cons c cs ih =>
    obtain ⟨h0, hlt⟩ := hcs c (List.mem_cons_self ..)
    have hrest : (c :: cs).flatMap encodeComponent ++ rest
        = leBytes 2 c.length ++ (c ++ (cs.flatMap encodeComponent ++ rest)) := by
      simp [encodeComponent]
    have hc : ofLeBytes (leBytes 2 c.length) = c.length := ofLeBytes_leBytes 2 _ hlt
    rw [List.length_cons, hrest, parseWatchPath_loop_succ, take_leBytes, drop_leBytes, hc,
      List.take_left' rfl, List.drop_left' rfl,
      if_neg (by rw [List.length_append, length_leBytes]; omega),
      if_neg (by rw [List.length_append]; omega), if_neg h0,
      ih (fun c' hc' => hcs c' (List.mem_cons_of_mem _ hc')), List.append_assoc,
      List.singleton_append]

theorem parseWatchPath_loop_sound (n : Nat) (ext : Bytes) (path : List Bytes) {rest : Bytes}
    {path' : List Bytes} (h : parseWatchPath.loop n ext path = .ok (rest, path')) :
    ∃ cs, cs.length = n ∧ (∀ c ∈ cs, IsComponent c) ∧
      ext = cs.flatMap encodeComponent ++ rest ∧ path' = path ++ cs := by
  induction n generalizing ext path with
  | zero =>
    obtain ⟨rfl, rfl⟩ := Prod.mk.inj (Except.ok.inj h)
    exact ⟨[], rfl, by simp, by simp, by simp⟩
  | succ n ih =>
    rw [parseWatchPath_loop_succ] at h
    split_ifs at h with h2 hlen h0
    obtain ⟨cs, rfl, hcs, hext, rfl⟩ := ih _ _ h
    set len := ofLeBytes (ext.take 2) with hlen_def
    have hlt : len < 2 ^ 16 := lt_of_lt_of_le (ofLeBytes_take_lt 2 ext) (by norm_num)
    have hclen : ((ext.drop 2).take len).length = len := List.length_take_of_le (by omega)
    refine ⟨(ext.drop 2).take len :: cs, rfl, ?_, ?_, by simp⟩
    · intro c hc
      rcases List.mem_cons.mp hc with rfl | hc
      · exact ⟨h0, by rw [hclen]; exact hlt⟩
      · exact hcs c hc
    · -- reassemble the length field, the component and what follows it
      rw [List.flatMap_cons, encodeComponent, hclen, List.append_assoc, ← hext,
        List.append_assoc, List.take_append_drop, hlen_def, leBytes_take (by omega),
        List.take_append_drop]

theorem parseWatchPath_loop_error (n : Nat) (ext : Bytes) (path : List Bytes) {e : Fault}
    (h : parseWatchPath.loop n ext path = .error e) : e = .errno EINVAL := by
  induction n generalizing ext path with
  | zero => cases h
  | succ n ih =>
    rw [parseWatchPath_loop_succ] at h
    split_ifs at h
    · exact (Except.error.inj h).symm
    · exact (Except.error.inj h).symm
    · exact (Except.error.inj h).symm
    · exact ih _ _ h

/-! ### Extensions -/

/-- What `parse_watch_path` computes on an extension that is there. -/
theorem parseWatchPath_of_ne_nil {ext : Bytes} (hne : ext ≠ []) :
    parseWatchPath ext =
      if ext.length < 2 then .error (.errno EINVAL)
      else match parseWatchPath.loop (ofLeBytes (ext.take 2)) (ext.drop 2) [] with
        | .ok (rest, path) => if rest = [] then .ok path else .error (.errno EINVAL)
        | .error e => .error e := by
  rw [parseWatchPath, if_neg (by simpa using hne), reject_bind, SUBTREE_WATCH_EVENT_DEPTH_LEN]
  by_cases h2 : ext.length < 2
  · rw [if_pos h2, if_pos h2]
  rw [if_neg h2, if_neg h2, readLe_of_le (by omega), ok_bind, sliceFrom_of_le (by omega), ok_bind,
    List.drop_zero]
  rcases parseWatchPath.loop (ofLeBytes (ext.take 2)) (ext.drop 2) [] with e | ⟨rest, path⟩
  · rfl
  · rw [ok_bind]
    dsimp only
    rw [reject_bind]
    cases rest with
    | nil => rfl
    | cons a rest => rfl

theorem parseWatchPath_encode {ext : Option (List Bytes)} (hext : IsExtension ext) :
    parseWatchPath (encodeExtension ext) = .ok (ext.getD []) := by
  cases ext with
  | none => rfl
  | some cs =>
    obtain ⟨hlt, hcs⟩ := hext cs rfl
    have hne : encodeExtension (some cs) ≠ [] := by
      intro h
      have := congrArg List.length h
      simp [encodeExtension] at this
    have hloop := parseWatchPath_loop_encode cs hcs [] []
    rw [List.append_nil, List.nil_append] at hloop
    rw [parseWatchPath_of_ne_nil hne, encodeExtension, take_leBytes, drop_leBytes,
      if_neg (by rw [List.length_append, length_leBytes]; omega),
      ofLeBytes_leBytes 2 _ (lt_of_lt_of_le hlt (by norm_num)), hloop]
    rfl

theorem parseWatchPath_sound {ext : Bytes} {path : List Bytes}
    (h : parseWatchPath ext = .ok path) :
    ∃ o, IsExtension o ∧ ext = encodeExtension o ∧ path = o.getD [] := by
  by_cases hne : ext = []
  · subst hne
    obtain rfl := Except.ok.inj h
    exact ⟨none, by simp [IsExtension], rfl, rfl⟩
  rw [parseWatchPath_of_ne_nil hne] at h
  split_ifs at h with h2
  rcases hloop : parseWatchPath.loop (ofLeBytes (ext.take 2)) (ext.drop 2) []
    with e | ⟨rest, path'⟩
  · rw [hloop] at h
    cases h
  · rw [hloop] at h
    dsimp only at h
    split_ifs at h with hrest
    obtain rfl := Except.ok.inj h
    subst hrest
    obtain ⟨cs, hlen, hcs, hext, hpath⟩ := parseWatchPath_loop_sound _ _ _ hloop
    have hdepth : ofLeBytes (ext.take 2) < 2 ^ 16 :=
      lt_of_lt_of_le (ofLeBytes_take_lt 2 ext) (by norm_num)
    refine ⟨some cs, ?_, ?_, by simpa using hpath⟩
    · intro cs' hcs'
      obtain rfl := Option.some.inj hcs'
      exact ⟨by omega, hcs⟩
    · rw [List.append_nil] at hext
      rw [encodeExtension, hlen, ← hext, leBytes_take (by omega), List.take_append_drop]

theorem parseWatchPath_error {ext : Bytes} {e : Fault} (h : parseWatchPath ext = .error e) :
    e = .errno EINVAL := by
  by_cases hne : ext = []
  · subst hne
    cases h
  rw [parseWatchPath_of_ne_nil hne] at h
  split_ifs at h
  · exact (Except.error.inj h).symm
  rcases hloop : parseWatchPath.loop (ofLeBytes (ext.take 2)) (ext.drop 2) []
    with e' | ⟨rest, path⟩
  · rw [hloop] at h
    obtain rfl := Except.error.inj h
    exact parseWatchPath_loop_error _ _ _ hloop
  · rw [hloop] at h
    dsimp only at h
    split_ifs at h
    exact (Except.error.inj h).symm

/-! ### Records -/

/-- What the header of a buffer says: the record's length, and where its name ends. -/
def totalLen (b : Bytes) : Nat := ofLeBytes (b.take 4)

/-- The end of the name, as the header of a buffer says. -/
def nameEnd (b : Bytes) : Nat := WATCH_EVENT_MIN_SIZE + ofLeBytes ((b.drop 6).take 2)

/-- The type code in the header of a buffer. -/
def typeCode (b : Bytes) : UInt16 := .ofNat (ofLeBytes ((b.drop 4).take 2))

/-- One round of the record loop on a buffer that is not empty. -/
theorem parseWatchEvents_loop_succ (fuel : Nat) {b : Bytes} (hne : b ≠ [])
    (evs : List WatchEvent) :
    parseWatchEvents.loop (fuel + 1) b evs =
      if b.length < 8 then .error (.errno EINVAL)
      else if totalLen b < 8 ∨ totalLen b > b.length then .error (.errno EINVAL)
      else if nameEnd b > totalLen b then .error (.errno EINVAL)
      else if 0 ∈ ((b.take (totalLen b)).take (nameEnd b)).drop 8 then .error (.errno EINVAL)
      else match parseWatchPath ((b.take (totalLen b)).drop (nameEnd b)) with
        | .error e => .error e
        | .ok path => parseWatchEvents.loop fuel (b.drop (totalLen b)) (evs ++
            [{ eventType := .fromRaw (typeCode b),
               name := ((b.take (totalLen b)).take (nameEnd b)).drop 8, path }]) := by
  rw [parseWatchEvents.loop, if_neg (by simpa using hne), reject_bind, WATCH_EVENT_MIN_SIZE]
  by_cases h8 : b.length < 8
  · rw [if_pos h8, if_pos h8]
  rw [if_neg h8, if_neg h8, readLe_of_le (by omega), ok_bind, readLe_of_le (by omega), ok_bind,
    readLe_of_le (by omega), ok_bind, reject_bind, List.drop_zero]
  change (if totalLen b < 8 ∨ totalLen b > b.length then _ else _) = _
  by_cases htotal : totalLen b < 8 ∨ totalLen b > b.length
  · rw [if_pos htotal, if_pos htotal]
  rw [if_neg htotal, if_neg htotal]
  dsimp only
  rw [reject_bind]
  change (if nameEnd b > totalLen b then _ else _) = _
  by_cases hname : nameEnd b > totalLen b
  · rw [if_pos hname, if_pos hname]
  have hrecord : (b.take (totalLen b)).length = totalLen b := List.length_take_of_le (by omega)
  have hmin : 8 ≤ nameEnd b := Nat.le_add_right _ _
  rw [if_neg hname, if_neg hname]
  change (sliceTo b (totalLen b) >>= fun record => slice record 8 (nameEnd b) >>= _) = _
  rw [sliceTo_of_le (by omega), ok_bind, slice_of_le hmin (by omega), ok_bind,
    decodeWatchComponent_eq]
  by_cases h0 : 0 ∈ ((b.take (totalLen b)).take (nameEnd b)).drop 8
  · rw [if_pos h0, if_pos h0, error_bind]
  rw [if_neg h0, if_neg h0, ok_bind]
  change (sliceFrom (b.take (totalLen b)) (nameEnd b) >>= _) = _
  rw [sliceFrom_of_le (by omega), ok_bind]
  rcases parseWatchPath ((b.take (totalLen b)).drop (nameEnd b)) with e | path
  · rfl
  · rw [ok_bind]
    dsimp only
    change (sliceFrom b (totalLen b) >>= _) = _
    rw [sliceFrom_of_le (by omega), ok_bind]
    rfl

/-- The header of a record is read back, whatever follows it. -/
theorem WatchRecord.header_encode (r : WatchRecord) (rest : Bytes) :
    totalLen (r.encode ++ rest) = r.encode.length ∧ typeCode (r.encode ++ rest) = r.type ∧
      nameEnd (r.encode ++ rest) = 8 + r.name.length := by
  have hlen := r.length_encode
  have hlt := r.length_lt
  set body := r.name ++ encodeExtension r.extension ++ rest with hbody
  have hencode : r.encode ++ rest = r.header ++ body := by
    rw [WatchRecord.encode, List.append_assoc]
  have hdrop4 : (r.encode ++ rest).drop 4
      = leBytes 2 r.type.toNat ++ (leBytes 2 r.name.length ++ body) := by
    rw [hencode, WatchRecord.header, List.append_assoc, drop_leBytes, List.append_assoc]
  have hdrop6 : (r.encode ++ rest).drop 6 = leBytes 2 r.name.length ++ body := by
    rw [show 6 = 4 + 2 from rfl, ← List.drop_drop, hdrop4, drop_leBytes]
  refine ⟨?_, ?_, ?_⟩
  · rw [totalLen, hencode, WatchRecord.header, List.append_assoc, take_leBytes,
      ofLeBytes_leBytes 4 _ (lt_of_lt_of_le hlt (by norm_num)), hlen]
  · rw [typeCode, hdrop4, take_leBytes, ofLeBytes_leBytes 2 _ r.type.toNat_lt]
    exact UInt16.ofNat_toNat
  · rw [nameEnd, hdrop6, take_leBytes,
      ofLeBytes_leBytes 2 _ (lt_of_lt_of_le r.name_wf.2 (by norm_num)), WATCH_EVENT_MIN_SIZE]

/-- The record loop reads a record in front of the buffer. -/
theorem parseWatchEvents_loop_encode (fuel : Nat) (r : WatchRecord) (rest : Bytes)
    (evs : List WatchEvent) :
    parseWatchEvents.loop (fuel + 1) (r.encode ++ rest) evs
      = parseWatchEvents.loop fuel rest (evs ++ [r.event]) := by
  obtain ⟨htotal, htype, hname⟩ := r.header_encode rest
  have hlen := r.length_encode
  have hmin : 8 ≤ r.encode.length := by rw [hlen, WATCH_EVENT_MIN_SIZE]; omega
  have hne : r.encode ++ rest ≠ [] := by
    intro h
    have := congrArg List.length h
    rw [List.length_append, List.length_nil] at this
    omega
  have hnameBytes : (r.encode.take (8 + r.name.length)).drop 8 = r.name := by
    rw [List.drop_take, WatchRecord.encode, List.drop_left' r.length_header,
      Nat.add_sub_cancel_left, List.take_left' rfl]
  have hextBytes : r.encode.drop (8 + r.name.length) = encodeExtension r.extension := by
    rw [← List.drop_drop, WatchRecord.encode, List.drop_left' r.length_header,
      List.drop_left' rfl]
  rw [parseWatchEvents_loop_succ fuel hne, htotal, htype, hname, List.take_left' rfl,
    List.drop_left' rfl, hnameBytes, hextBytes, parseWatchPath_encode r.extension_wf,
    if_neg (by rw [List.length_append]; omega), if_neg (by rw [List.length_append]; omega),
    if_neg (by rw [hlen, WATCH_EVENT_MIN_SIZE]; omega), if_neg r.name_wf.1]
  rfl

/-- What one round of the record loop consumes is a record. -/
theorem exists_watchRecord {b : Bytes} {path : List Bytes} (h8 : ¬ b.length < 8)
    (htotal : ¬ (totalLen b < 8 ∨ totalLen b > b.length)) (hname : ¬ nameEnd b > totalLen b)
    (h0 : 0 ∉ ((b.take (totalLen b)).take (nameEnd b)).drop 8)
    (hpath : parseWatchPath ((b.take (totalLen b)).drop (nameEnd b)) = .ok path) :
    ∃ r : WatchRecord, b = r.encode ++ b.drop (totalLen b) ∧
      r.event = { eventType := .fromRaw (typeCode b),
                  name := ((b.take (totalLen b)).take (nameEnd b)).drop 8, path } := by
  obtain ⟨ext, hext, hextBytes, rfl⟩ := parseWatchPath_sound hpath
  have hrecord : (b.take (totalLen b)).length = totalLen b := List.length_take_of_le (by omega)
  have hmin : nameEnd b = 8 + ofLeBytes ((b.drop 6).take 2) := rfl
  set name := ((b.take (totalLen b)).take (nameEnd b)).drop 8 with hname_def
  have hnameLen : name.length = ofLeBytes ((b.drop 6).take 2) := by
    rw [hname_def, List.length_drop, List.length_take_of_le (by omega), hmin]
    omega
  have hextLen : (encodeExtension ext).length = totalLen b - nameEnd b := by
    rw [← hextBytes, List.length_drop, hrecord]
  have hlength : WATCH_EVENT_MIN_SIZE + name.length + (encodeExtension ext).length
      = totalLen b := by
    rw [hextLen, hnameLen, WATCH_EVENT_MIN_SIZE]
    omega
  have htotal_lt : totalLen b < 2 ^ 32 := lt_of_lt_of_le (ofLeBytes_take_lt 4 b) (by norm_num)
  have hname_lt : name.length < 2 ^ 16 := by
    rw [hnameLen]
    exact lt_of_lt_of_le (ofLeBytes_take_lt 2 _) (by norm_num)
  refine ⟨⟨typeCode b, name, ext, ⟨h0, hname_lt⟩, hext, by omega⟩, ?_, rfl⟩
  -- the three header fields, the name and the extension make up the record
  have htype : leBytes 2 (typeCode b).toNat = (b.drop 4).take 2 := by
    have hlt := ofLeBytes_take_lt 2 (b.drop 4)
    rw [typeCode, UInt16.toNat_ofNat_of_lt' (by simpa using hlt),
      leBytes_take (by rw [List.length_drop]; omega)]
  have hnameField : leBytes 2 name.length = (b.drop 6).take 2 := by
    rw [hnameLen, leBytes_take (by rw [List.length_drop]; omega)]
  have hbody : name ++ encodeExtension ext = (b.take (totalLen b)).drop 8 := by
    rw [hname_def, ← hextBytes, List.drop_take]
    conv_rhs => rw [← List.take_append_drop (nameEnd b - 8) ((b.take (totalLen b)).drop 8)]
    rw [List.drop_drop, show 8 + (nameEnd b - 8) = nameEnd b by omega]
  have hheader : b.take 4 ++ ((b.drop 4).take 2 ++ (b.drop 6).take 2)
      = (b.take (totalLen b)).take 8 := by
    rw [List.take_take, Nat.min_eq_left (by omega), show 8 = 4 + (2 + 2) from rfl, List.take_add,
      List.take_add (l := b.drop 4), List.drop_drop]
  have hencode : (leBytes 4 (totalLen b) ++ (leBytes 2 (typeCode b).toNat ++ leBytes 2 name.length))
      ++ (name ++ encodeExtension ext) = b.take (totalLen b) := by
    rw [hbody, htype, hnameField, totalLen, leBytes_take (by omega), hheader, totalLen,
      List.take_append_drop]
  rw [← hlength] at hencode
  change b = (_ ++ (_ ++ _)) ++ (_ ++ _) ++ _
  dsimp only
  rw [hencode, hlength, List.take_append_drop]

/-! ### The decoder -/

theorem parseWatchEvents_loop_flatMap (rs : List WatchRecord) (fuel : Nat)
    (hfuel : (rs.flatMap WatchRecord.encode).length < fuel) (evs : List WatchEvent) :
    parseWatchEvents.loop fuel (rs.flatMap WatchRecord.encode) evs
      = .ok (evs ++ rs.map WatchRecord.event) := by
  induction rs generalizing fuel evs with
  | nil =>
    obtain ⟨n, rfl⟩ : ∃ n, fuel = n + 1 := ⟨fuel - 1, by omega⟩
    simp [parseWatchEvents.loop]
    rfl
  | cons r rs ih =>
    have hpos : 8 ≤ r.encode.length := by rw [r.length_encode, WATCH_EVENT_MIN_SIZE]; omega
    rw [List.flatMap_cons, List.length_append] at hfuel
    obtain ⟨n, rfl⟩ : ∃ n, fuel = n + 1 := ⟨fuel - 1, by omega⟩
    rw [List.flatMap_cons, parseWatchEvents_loop_encode, ih n (by omega), List.append_assoc,
      List.map_cons, List.singleton_append]

theorem parseWatchEvents_loop_sound (fuel : Nat) (b : Bytes) (evs : List WatchEvent)
    {evs' : List WatchEvent} (h : parseWatchEvents.loop fuel b evs = .ok evs') :
    ∃ rs : List WatchRecord, b = rs.flatMap WatchRecord.encode ∧
      evs' = evs ++ rs.map WatchRecord.event := by
  induction fuel generalizing b evs with
  | zero => cases h
  | succ fuel ih =>
    by_cases hne : b = []
    · subst hne
      obtain rfl := Except.ok.inj h
      exact ⟨[], rfl, by simp⟩
    rw [parseWatchEvents_loop_succ fuel hne] at h
    split_ifs at h with h8 htotal hname h0
    rcases hpath : parseWatchPath ((b.take (totalLen b)).drop (nameEnd b)) with e | path
    · rw [hpath] at h
      cases h
    · rw [hpath] at h
      obtain ⟨r, hb, hr⟩ := exists_watchRecord h8 htotal hname h0 hpath
      obtain ⟨rs, hrest, rfl⟩ := ih _ _ h
      refine ⟨r :: rs, ?_, ?_⟩
      · rw [List.flatMap_cons, ← hrest]
        exact hb
      · rw [List.map_cons, hr, List.append_assoc, List.singleton_append]

theorem parseWatchEvents_loop_error (fuel : Nat) (b : Bytes) (hfuel : b.length < fuel)
    (evs : List WatchEvent) {e : Fault} (h : parseWatchEvents.loop fuel b evs = .error e) :
    e = .errno EINVAL := by
  induction fuel generalizing b evs with
  | zero => omega
  | succ fuel ih =>
    by_cases hne : b = []
    · subst hne
      cases h
    rw [parseWatchEvents_loop_succ fuel hne] at h
    split_ifs at h with h8 htotal
    · exact (Except.error.inj h).symm
    · exact (Except.error.inj h).symm
    · exact (Except.error.inj h).symm
    · exact (Except.error.inj h).symm
    rcases hpath : parseWatchPath ((b.take (totalLen b)).drop (nameEnd b)) with e' | path
    · rw [hpath] at h
      obtain rfl := Except.error.inj h
      exact parseWatchPath_error hpath
    · rw [hpath] at h
      exact ih _ (by rw [List.length_drop]; omega) _ h

theorem parseWatchEvents_loop_iff {fuel : Nat} {b : Bytes} (hfuel : b.length < fuel)
    (evs : List WatchEvent) : parseWatchEvents.loop fuel b [] = .ok evs ↔
      ∃ rs : List WatchRecord, b = rs.flatMap WatchRecord.encode ∧
        List.Forall₂ WatchRecord.Gives rs evs := by
  simp only [WatchRecord.forall₂_gives_iff]
  constructor
  · exact fun h => by simpa using parseWatchEvents_loop_sound fuel b [] h
  · rintro ⟨rs, rfl, rfl⟩
    simpa using parseWatchEvents_loop_flatMap rs fuel hfuel []

/-- **`parse_watch_events` decodes exactly the concatenations of records**, to one event for each in
order, which says what the record does; every other buffer is `EINVAL`.  It never panics, and no
number of rounds above the buffer's length changes the result, so the loop ends by itself. -/
theorem parseWatchEvents_grammar (b : Bytes) :
    (∀ evs, parseWatchEvents b = .ok evs ↔
      ∃ rs : List WatchRecord, b = rs.flatMap WatchRecord.encode ∧
        List.Forall₂ WatchRecord.Gives rs evs) ∧
    ((¬ ∃ rs : List WatchRecord, b = rs.flatMap WatchRecord.encode) →
      parseWatchEvents b = .error (.errno EINVAL)) ∧
    parseWatchEvents b ≠ .error .panic ∧
    ∀ fuel, b.length < fuel → parseWatchEvents.loop fuel b [] = parseWatchEvents b := by
  have hloop : ∀ fuel, b.length < fuel → ∀ evs, parseWatchEvents.loop fuel b [] = .ok evs ↔ _ :=
    fun fuel hfuel => parseWatchEvents_loop_iff hfuel
  have herror : ∀ fuel, b.length < fuel → ∀ e, parseWatchEvents.loop fuel b [] = .error e →
      e = .errno EINVAL := fun fuel hfuel e => parseWatchEvents_loop_error fuel b hfuel []
  have hlt : b.length < b.length + 1 := Nat.lt_succ_self _
  refine ⟨hloop _ hlt, ?_, ?_, ?_⟩
  · intro hno
    rcases h : parseWatchEvents b with e | evs
    · rw [herror _ hlt e h]
    · obtain ⟨rs, hb, _⟩ := (hloop _ hlt evs).mp h
      exact absurd ⟨rs, hb⟩ hno
  · intro hpanic
    cases herror _ hlt _ hpanic
  · intro fuel hfuel
    rcases h : parseWatchEvents b with e | evs
    · rcases h' : parseWatchEvents.loop fuel b [] with e' | evs'
      · rw [herror _ hlt e h, herror fuel hfuel e' h']
      · have hevs := (hloop _ hlt evs').mpr ((hloop fuel hfuel evs').mp h')
        rw [show parseWatchEvents.loop (b.length + 1) b [] = .error e from h] at hevs
        cases hevs
    · exact (hloop fuel hfuel evs).mpr ((hloop _ hlt evs).mp h)

end Peios.Registry
