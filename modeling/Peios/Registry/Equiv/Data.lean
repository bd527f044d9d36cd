import Peios.Registry.Data

/-!
# Correctness of `Data.decode` and `Data.encode`

`Decoded ty b d` lists what decoding can return and what is then known of the bytes; `decoded`
says that `Data.decode` returns nothing else.  From it come the two results:

* `decode_keepsBytes_iff`: encoding what was decoded gives the bytes back up to trailing NULs,
  except for a `REG_MULTI_SZ` that holds an empty string in front of another string;
* `decode_encode_iff_canonical`: decoding inverts encoding exactly on canonical data.
-/

namespace Peios.Registry

open ByteString

/-! ### Strings -/

theorem textEnd_concat (b : Bytes) (x : UInt8) :
    textEnd (b ++ [x]) = if x = 0 then textEnd b else b.length + 1 := by
  unfold textEnd rposition
  rw [List.reverse_append, List.reverse_singleton, List.singleton_append, List.findIdx?_cons,
    List.length_append, List.length_singleton]
  by_cases hx : x = 0
  · rw [if_pos hx, hx]
    rcases hi : b.reverse.findIdx? (fun x => decide (x ≠ 0)) with _ | i
    · simp
    · simp
      omega
  · simp [hx]

/-- `bytes[..end]` is in range. -/
theorem textEnd_le (b : Bytes) : textEnd b ≤ b.length := by
  induction b using List.reverseRecOn with
  | nil => decide
  | append_singleton b x ih =>
    rw [textEnd_concat, List.length_append, List.length_singleton]
    split_ifs <;> omega

/-- A string's text is what is left without the trailing NULs. -/
theorem take_textEnd (b : Bytes) : b.take (textEnd b) = trim 0 b := by
  induction b using List.reverseRecOn with
  | nil => rfl
  | append_singleton b x ih =>
    rw [textEnd_concat]
    split_ifs with hx
    · rw [hx, trim_concat, ← ih, List.take_append_of_le_length (textEnd_le b)]
    · have hkeep : trim 0 (b ++ [x]) = b ++ [x] :=
        List.rdropWhile_concat_neg _ _ _ (by simpa using hx)
      rw [hkeep, List.take_of_length_le (by simp)]

theorem string_eq_some {b : Bytes} {s : String} :
    string b = some s ↔ utf8 s = trim 0 b ∧ '\x00' ∉ s.toList := by
  rw [← fromUtf8_eq_some, string, take_textEnd]
  rcases fromUtf8 (trim 0 b) with _ | text
  · simp
  · by_cases h0 : '\x00' ∈ text.toList
    · simp only [Option.bind_eq_bind, Option.bind_some, if_pos h0, reduceCtorEq, Option.some.injEq,
        false_iff, not_and, not_not]
      rintro rfl
      exact h0
    · simp only [Option.bind_eq_bind, Option.bind_some, if_neg h0, Option.some.injEq,
        iff_self_and]
      rintro rfl
      exact h0

theorem mapM_fromUtf8_eq_some {ws : List Bytes} {l : List String} :
    ws.mapM fromUtf8 = some l ↔ l.map utf8 = ws := by
  induction ws generalizing l with
  | nil => simp [eq_comm]
  | cons w ws ih =>
    rw [List.mapM_cons]
    cases l with
    | nil => simp [Option.bind_eq_some_iff]
    | cons s l => simp [Option.bind_eq_some_iff, fromUtf8_eq_some, ih]

theorem strings_eq_some {b : Bytes} {l : List String} :
    strings b = some l ↔ l.map utf8 = pieces 0 b := mapM_fromUtf8_eq_some

/-- Bytes are UTF-8 exactly when their pieces between NULs are. -/
theorem isUtf8_iff_pieces (b : Bytes) : IsUtf8 b ↔ ∀ w ∈ pieces 0 b, IsUtf8 w := by
  have hnil : IsUtf8 [] := ⟨"", rfl⟩
  induction b using pieces_induction (s := (0 : UInt8)) with
  | hfree w hw =>
    rw [pieces_of_not_mem hw]
    by_cases h : w = []
    · simp [h, hnil]
    · simp [h]
  | hsep w b hw ih =>
    have ih : IsUtf8 b ↔ ∀ w ∈ pieces 0 b, IsUtf8 w := ih
    rw [isUtf8_append_zero, pieces_append_cons hw, ih]
    by_cases h : w = []
    · simp [h, hnil]
    · simp [h]

/-- A list decodes exactly when its bytes are UTF-8. -/
theorem exists_strings_eq_some {b : Bytes} : (∃ l, strings b = some l) ↔ IsUtf8 b := by
  rw [isUtf8_iff_pieces]
  simp only [strings_eq_some]
  have hrange := Set.ext_iff.mp (Set.range_list_map utf8) (pieces 0 b)
  exact hrange

/-- Bytes are UTF-8 exactly when they are without their trailing NULs. -/
theorem isUtf8_trim (b : Bytes) : IsUtf8 (trim 0 b) ↔ IsUtf8 b := by
  induction b using List.reverseRecOn with
  | nil => rfl
  | append_singleton b x ih =>
    by_cases hx : x = 0
    · rw [hx, trim_concat, ih, isUtf8_append_zero]
      exact (and_iff_left ⟨"", rfl⟩).symm
    · rw [trim, List.rdropWhile_concat_neg _ _ _ (by simpa using hx)]

/-- A string decodes exactly when its bytes are UTF-8 with no NUL before the text ends. -/
theorem exists_string_eq_some {b : Bytes} :
    (∃ s, string b = some s) ↔ IsUtf8 b ∧ OnlyTrailing 0 b := by
  simp only [string_eq_some]
  rw [← isUtf8_trim, ← not_mem_trim]
  constructor
  · rintro ⟨s, hs, h0⟩
    exact ⟨⟨s, hs⟩, fun hmem => h0 (zero_mem_utf8.mp (hs ▸ hmem))⟩
  · rintro ⟨⟨s, hs⟩, h0⟩
    exact ⟨s, hs, fun hmem => h0 (hs ▸ zero_mem_utf8.mpr hmem)⟩

/-! ### What decoding returns -/

/-- What `Data.decode` can return for a type and bytes. -/
inductive Decoded : ValueType → Bytes → Data → Prop
  | none : Decoded .NONE [] .none
  | sz {b s} : string b = some s → Decoded .SZ b (.sz s)
  | expandSz {b s} : string b = some s → Decoded .EXPAND_SZ b (.expandSz s)
  | link {b target} : utf8 target = b → '\x00' ∉ target.toList → Decoded .LINK b (.link target)
  | multiSz {b list} : strings b = some list → Decoded .MULTI_SZ b (.multiSz list)
  | dword {b} : b.length = 4 → Decoded .DWORD b (.dword (.ofNat (ofLeBytes b)))
  | dwordBigEndian {b} : b.length = 4 →
      Decoded .DWORD_BIG_ENDIAN b (.dwordBigEndian (.ofNat (ofLeBytes b.reverse)))
  | qword {b} : b.length = 8 → Decoded .QWORD b (.qword (.ofNat (ofLeBytes b)))
  | binary (b) : Decoded .BINARY b (.binary b)
  | raw (ty b) : Decoded ty b (.raw ty b)

section

variable {ty : ValueType} {b : Bytes}

/-- Bytes that cannot be decoded are kept. -/
theorem Decoded.elim {α : Type} {o : Option α} {f : α → Data}
    (h : ∀ v, o = some v → Decoded ty b (f v)) : Decoded ty b (o.elim (.raw ty b) f) := by
  cases o with
  | none => exact .raw ty b
  | some v => exact h v rfl

/-- So are bytes of the wrong length. -/
theorem Decoded.sized {n : Nat} {d : Data} (h : b.length = n → Decoded ty b d) :
    Decoded ty b (if b.length = n then d else .raw ty b) := by
  split_ifs with hlen
  · exact h hlen
  · exact .raw ty b

end

theorem decoded (ty : ValueType) (b : Bytes) : Decoded ty b (Data.decode ty b) := by
  unfold Data.decode
  dsimp only
  -- one type after another, in the order in which `decode` asks
  by_cases hnone : ty = .NONE ∧ b.isEmpty
  · rw [if_pos hnone]
    obtain ⟨rfl, hb⟩ := hnone
    rw [List.isEmpty_iff.mp hb]
    exact .none
  rw [if_neg hnone]
  by_cases hsz : ty = .SZ
  · rw [if_pos hsz]
    subst hsz
    exact .elim fun _ hs => .sz hs
  rw [if_neg hsz]
  by_cases hexpand : ty = .EXPAND_SZ
  · rw [if_pos hexpand]
    subst hexpand
    exact .elim fun _ hs => .expandSz hs
  rw [if_neg hexpand]
  by_cases hlink : ty = .LINK
  · rw [if_pos hlink]
    subst hlink
    refine .elim fun target h => ?_
    obtain ⟨htarget, h0⟩ := Option.filter_eq_some_iff.mp h
    exact .link (fromUtf8_eq_some.mp htarget) (by simpa using h0)
  rw [if_neg hlink]
  by_cases hmulti : ty = .MULTI_SZ
  · rw [if_pos hmulti]
    subst hmulti
    exact .elim fun _ hlist => .multiSz hlist
  rw [if_neg hmulti]
  by_cases hdword : ty = .DWORD
  · rw [if_pos hdword]
    subst hdword
    exact .sized .dword
  rw [if_neg hdword]
  by_cases hbe : ty = .DWORD_BIG_ENDIAN
  · rw [if_pos hbe]
    subst hbe
    exact .sized .dwordBigEndian
  rw [if_neg hbe]
  by_cases hq : ty = .QWORD
  · rw [if_pos hq]
    subst hq
    exact .sized .qword
  rw [if_neg hq]
  by_cases hbin : ty = .BINARY
  · rw [if_pos hbin]
    subst hbin
    exact .binary b
  rw [if_neg hbin]
  exact .raw ty b

/-- The decoded data has the type it was decoded as. -/
theorem ty_decode (ty : ValueType) (b : Bytes) : (Data.decode ty b).ty = ty := by
  have h := decoded ty b
  generalize Data.decode ty b = d at h ⊢
  cases h <;> rfl

theorem decode_multiSz (b : Bytes) :
    Data.decode .MULTI_SZ b = (strings b).elim (.raw .MULTI_SZ b) .multiSz := rfl

/-! ### Strings are recognised by their bytes as a whole -/

/-- Decoding `b` as `ty` gives a `mk a` exactly when `valid` holds, and then for an `a` that
`value` says. -/
def Recognises {α : Type} (ty : ValueType) (b : Bytes) (mk : α → Data) (valid : Prop)
    (value : α → Prop) : Prop :=
  ((∃ a, Data.decode ty b = mk a) ↔ valid) ∧ ∀ a, Data.decode ty b = mk a → value a

/-- Data read by a decoder that may decline. -/
theorem recognises_of_elim {α : Type} {ty : ValueType} {b : Bytes} {mk : α → Data}
    {r : Option α} (hdecode : Data.decode ty b = r.elim (.raw ty b) mk)
    (hinj : ∀ a a', mk a = mk a' → a = a') (hraw : ∀ a, mk a ≠ .raw ty b) {valid : Prop}
    (hvalid : (∃ a, r = some a) ↔ valid) {value : α → Prop}
    (hvalue : ∀ a, r = some a → value a) : Recognises ty b mk valid value := by
  have hiff : ∀ a, Data.decode ty b = mk a ↔ r = some a := by
    intro a
    rw [hdecode]
    rcases r with _ | a'
    · exact iff_of_false (fun h => hraw a h.symm) (by simp)
    · exact ⟨fun h => congrArg some (hinj _ _ h), fun h => congrArg mk (Option.some.inj h)⟩
  constructor
  · rw [← hvalid]
    exact exists_congr hiff
  · exact fun a ha => hvalue a ((hiff a).mp ha)

/-- A link's target decodes exactly when its bytes are UTF-8 without a NUL. -/
theorem link_eq_some {b : Bytes} {target : String} :
    ((fromUtf8 b).filter fun target => '\x00' ∉ target.toList) = some target ↔
      utf8 target = b ∧ 0 ∉ b := by
  rw [Option.filter_eq_some_iff, fromUtf8_eq_some, decide_eq_true_iff, ← zero_mem_utf8]
  constructor
  · rintro ⟨h, h0⟩
    exact ⟨h, h ▸ h0⟩
  · rintro ⟨h, h0⟩
    exact ⟨h, h.symm ▸ h0⟩

/-- **String values are recognised by the bytes as a whole**: a string type decodes exactly when
all of its bytes are UTF-8 and its NULs stand where its terminators do (nowhere in a link's target,
anywhere in a list).  The strings are then the bytes without those terminators. -/
theorem decode_recognises_strings (b : Bytes) :
    Recognises .SZ b .sz (IsUtf8 b ∧ OnlyTrailing 0 b) (utf8 · = trim 0 b) ∧
    Recognises .EXPAND_SZ b .expandSz (IsUtf8 b ∧ OnlyTrailing 0 b) (utf8 · = trim 0 b) ∧
    Recognises .LINK b .link (IsUtf8 b ∧ 0 ∉ b) (utf8 · = b) ∧
    Recognises .MULTI_SZ b .multiSz (IsUtf8 b) (fun list => Runs 0 b (list.map utf8)) := by
  refine ⟨?_, ?_, ?_, ?_⟩
  · apply recognises_of_elim (r := string b) rfl
    · exact fun _ _ => Data.sz.inj
    · exact fun _ h => by cases h
    · exact exists_string_eq_some
    · exact fun _ hs => (string_eq_some.mp hs).1
  · apply recognises_of_elim (r := string b) rfl
    · exact fun _ _ => Data.expandSz.inj
    · exact fun _ h => by cases h
    · exact exists_string_eq_some
    · exact fun _ hs => (string_eq_some.mp hs).1
  · apply recognises_of_elim
      (r := (fromUtf8 b).filter fun target => '\x00' ∉ target.toList) rfl
    · exact fun _ _ => Data.link.inj
    · exact fun _ h => by cases h
    · simp only [link_eq_some, exists_and_right]
      rfl
    · exact fun _ h => (link_eq_some.mp h).1
  · apply recognises_of_elim (r := strings b) (decode_multiSz b)
    · exact fun _ _ => Data.multiSz.inj
    · exact fun _ h => by cases h
    · exact exists_strings_eq_some
    · exact fun _ hlist => runs_iff.mpr (strings_eq_some.mp hlist)

/-! ### Decoding keeps the bytes -/

/-- A type whose data is terminated by NULs. -/
def ValueType.IsTerminated (ty : ValueType) : Prop := ty = .SZ ∨ ty = .EXPAND_SZ ∨ ty = .MULTI_SZ

instance (ty : ValueType) : Decidable ty.IsTerminated :=
  inferInstanceAs (Decidable (_ ∨ _ ∨ _))

/-- Data that decoding left as it was. -/
def Data.IsRaw (d : Data) : Prop := ∃ ty b, d = .raw ty b

/-- Decoding `b` as `ty` loses nothing but terminating NULs: what it decodes to is written back as
`b`, up to trailing NULs for the types that end with one, and what it does not decode is kept. -/
def KeepsBytes (ty : ValueType) (b : Bytes) : Prop :=
  (¬ (Data.decode ty b).IsRaw →
    if ty.IsTerminated then trim 0 (Data.decode ty b).encode = trim 0 b
    else (Data.decode ty b).encode = b) ∧
  ∀ ty' b', Data.decode ty b = .raw ty' b' → ty' = ty ∧ b' = b

theorem toNat_ofNat_ofLeBytes {b : Bytes} (h : b.length = 4) :
    (UInt32.ofNat (ofLeBytes b)).toNat = ofLeBytes b := by
  have hlt := ofLeBytes_lt b
  rw [h] at hlt
  exact UInt32.toNat_ofNat_of_lt' (lt_of_lt_of_le hlt (by decide))

theorem toNat_ofNat_ofLeBytes64 {b : Bytes} (h : b.length = 8) :
    (UInt64.ofNat (ofLeBytes b)).toNat = ofLeBytes b := by
  have hlt := ofLeBytes_lt b
  rw [h] at hlt
  exact UInt64.toNat_ofNat_of_lt' (lt_of_lt_of_le hlt (by decide))

/-- Every type but `REG_MULTI_SZ` keeps all bytes. -/
theorem keepsBytes_of_ne_multiSz {ty : ValueType} (hty : ty ≠ .MULTI_SZ) (b : Bytes) :
    KeepsBytes ty b := by
  have h := decoded ty b
  unfold KeepsBytes
  generalize Data.decode ty b = d at h ⊢
  have hstring : ∀ s, string b = some s → trim 0 (utf8 s ++ [0]) = trim 0 b := by
    intro s hs
    rw [trim_concat, (string_eq_some.mp hs).1]
    exact List.rdropWhile_idempotent _ _
  cases h with
  | none => exact ⟨fun _ => rfl, by simp⟩
  | sz hs => exact ⟨fun _ => hstring _ hs, by simp⟩
  | expandSz hs => exact ⟨fun _ => hstring _ hs, by simp⟩
  | link htarget _ => exact ⟨fun _ => htarget, by simp⟩
  | multiSz _ => exact absurd rfl hty
  | dword hlen =>
    refine ⟨fun _ => ?_, by simp⟩
    show leBytes 4 (UInt32.ofNat (ofLeBytes b)).toNat = b
    rw [toNat_ofNat_ofLeBytes hlen, ← hlen, leBytes_ofLeBytes]
  | dwordBigEndian hlen =>
    refine ⟨fun _ => ?_, by simp⟩
    show (leBytes 4 (UInt32.ofNat (ofLeBytes b.reverse)).toNat).reverse = b
    have hrev : b.reverse.length = 4 := by rw [List.length_reverse, hlen]
    rw [toNat_ofNat_ofLeBytes hrev, ← hrev, leBytes_ofLeBytes, List.reverse_reverse]
  | qword hlen =>
    refine ⟨fun _ => ?_, by simp⟩
    show leBytes 8 (UInt64.ofNat (ofLeBytes b)).toNat = b
    rw [toNat_ofNat_ofLeBytes64 hlen, ← hlen, leBytes_ofLeBytes]
  | binary => exact ⟨fun _ => rfl, by simp⟩
  | raw =>
    refine ⟨fun hraw => absurd ⟨ty, b, rfl⟩ hraw, fun ty' b' heq => ?_⟩
    obtain ⟨rfl, rfl⟩ := Data.raw.inj heq
    exact ⟨rfl, rfl⟩

/-- A decoded `REG_MULTI_SZ` is written back as its pieces. -/
theorem encode_multiSz {b : Bytes} {list : List String} (h : strings b = some list) :
    (Data.multiSz list).encode = terminate 0 (pieces 0 b) ++ [0] := by
  rw [Data.encode, strings_eq_some.mp h]

theorem keepsBytes_multiSz (b : Bytes) :
    KeepsBytes .MULTI_SZ b ↔ ¬ IsUtf8 b ∨ Separated 0 (trim 0 b) := by
  rw [KeepsBytes, decode_multiSz, ← exists_strings_eq_some]
  rcases h : strings b with _ | list
  · simp [Data.IsRaw]
  · have hterm : ValueType.MULTI_SZ.IsTerminated := by decide
    rw [Option.elim_some, if_pos hterm, encode_multiSz h, trim_concat, trim_terminate_pieces]
    simp [Data.IsRaw]

/-- **Decoding loses nothing but terminating NULs exactly** when the type is not `REG_MULTI_SZ`,
or the bytes are not UTF-8, or, without their trailing NULs, they neither begin with a NUL nor
hold two in a row. -/
theorem decode_keepsBytes_iff (ty : ValueType) (b : Bytes) :
    KeepsBytes ty b ↔ ty ≠ .MULTI_SZ ∨ ¬ IsUtf8 b ∨ Separated 0 (trim 0 b) := by
  by_cases hty : ty = .MULTI_SZ
  · subst hty
    rw [keepsBytes_multiSz]
    simp
  · exact iff_of_true (keepsBytes_of_ne_multiSz hty b) (.inl hty)

/-- `a`, an empty string, `b`: the list comes back without the empty string, and the bytes after
the first end of the list have become part of it. -/
theorem not_keepsBytes_embedded_end :
    Data.decode .MULTI_SZ [97, 0, 0, 98, 0, 0] = .multiSz ["a", "b"] ∧
      ¬ KeepsBytes .MULTI_SZ [97, 0, 0, 98, 0, 0] := by
  refine ⟨by decide, ?_⟩
  rw [keepsBytes_multiSz]
  decide

/-! ### Canonical data -/

/-- Data that is written in a form decoding reads back. -/
def Data.Canonical : Data → Prop
  | .sz s | .expandSz s | .link s => '\x00' ∉ s.toList
  | .multiSz list => ∀ s ∈ list, s ≠ "" ∧ '\x00' ∉ s.toList
  | .raw ty b => Data.decode ty b = .raw ty b
  | .none | .dword _ | .dwordBigEndian _ | .qword _ | .binary _ => True

/-- What decoding returns is canonical. -/
theorem canonical_decode (ty : ValueType) (b : Bytes) : (Data.decode ty b).Canonical := by
  have h := decoded ty b
  generalize hd : Data.decode ty b = d at h ⊢
  cases h with
  | none => trivial
  | sz hs => exact (string_eq_some.mp hs).2
  | expandSz hs => exact (string_eq_some.mp hs).2
  | link _ h0 => exact h0
  | @multiSz _ list hlist =>
    intro s hs
    have hmem : utf8 s ∈ pieces 0 b := by
      rw [← strings_eq_some.mp hlist]
      exact List.mem_map_of_mem hs
    obtain ⟨hne, h0⟩ := isPiece_of_mem_pieces b _ hmem
    exact ⟨fun h => hne (utf8_eq_nil.mpr h), fun h => h0 (zero_mem_utf8.mpr h)⟩
  | dword _ => trivial
  | dwordBigEndian _ => trivial
  | qword _ => trivial
  | binary => trivial
  | raw => exact hd

/-- A string without NULs is read back from its terminated bytes. -/
theorem string_terminated {s : String} (h0 : '\x00' ∉ s.toList) :
    string (utf8 s ++ [0]) = some s := by
  rw [string_eq_some, trim_concat, trim_of_not_mem (mt zero_mem_utf8.mp h0)]
  exact ⟨rfl, h0⟩

/-- Canonical data is read back. -/
theorem decode_encode_of_canonical {d : Data} (hd : d.Canonical) :
    Data.decode d.ty d.encode = d := by
  cases d with
  | none => rfl
  | sz s =>
    show (string (utf8 s ++ [0])).elim _ Data.sz = _
    rw [string_terminated hd, Option.elim_some]
  | expandSz s =>
    show (string (utf8 s ++ [0])).elim _ Data.expandSz = _
    rw [string_terminated hd, Option.elim_some]
  | link target =>
    show ((fromUtf8 (utf8 target)).filter _).elim _ Data.link = _
    have h0 : '\x00' ∉ target.toList := hd
    rw [fromUtf8_utf8, Option.filter_some, if_pos (decide_eq_true h0), Option.elim_some]
  | multiSz list =>
    have hlist : strings (terminate 0 (list.map utf8) ++ [0]) = some list := by
      rw [strings_eq_some, pieces_terminate_append, pieces_cons_self, pieces_nil, List.append_nil]
      intro w hw
      obtain ⟨s, hs, rfl⟩ := List.mem_map.mp hw
      obtain ⟨hne, h0⟩ := hd s hs
      exact ⟨mt utf8_eq_nil.mp hne, mt zero_mem_utf8.mp h0⟩
    rw [Data.ty, Data.encode, decode_multiSz, hlist, Option.elim_some]
  | dword n =>
    show Data.dword (.ofNat (ofLeBytes (leBytes 4 n.toNat))) = _
    rw [ofLeBytes_leBytes 4 _ n.toNat_lt, UInt32.ofNat_toNat]
  | dwordBigEndian n =>
    show Data.dwordBigEndian (.ofNat (ofLeBytes (leBytes 4 n.toNat).reverse.reverse)) = _
    rw [List.reverse_reverse, ofLeBytes_leBytes 4 _ n.toNat_lt,
      UInt32.ofNat_toNat]
  | qword n =>
    show Data.qword (.ofNat (ofLeBytes (leBytes 8 n.toNat))) = _
    rw [ofLeBytes_leBytes 8 _ n.toNat_lt, UInt64.ofNat_toNat]
  | binary b => rfl
  | raw ty b => exact hd

/-- **Decoding inverts encoding exactly on canonical data**, whatever decoding returns is canonical
and of the type it was decoded as, and so reading and rewriting a value changes it at most once. -/
theorem decode_encode_iff_canonical :
    (∀ d : Data, Data.decode d.ty d.encode = d ↔ d.Canonical) ∧
    (∀ (ty : ValueType) (b : Bytes),
      (Data.decode ty b).Canonical ∧ (Data.decode ty b).ty = ty) ∧
    ∀ (ty : ValueType) (b : Bytes),
      Data.decode ty (Data.decode ty b).encode = Data.decode ty b := by
  refine ⟨fun d => ⟨?_, decode_encode_of_canonical⟩, ?_, ?_⟩
  · intro h
    rw [← h]
    exact canonical_decode _ _
  · exact fun ty b => ⟨canonical_decode ty b, ty_decode ty b⟩
  · intro ty b
    have h := decode_encode_of_canonical (canonical_decode ty b)
    rwa [ty_decode] at h

end Peios.Registry
