import Mathlib.Data.List.Basic

/-!
# Strings as UTF-8 bytes

`utf8 s` is the UTF-8 encoding of a string and `fromUtf8 b` the string that bytes encode, if there
is one; `fromUtf8_eq_some` says that the second inverts the first.  `fromUtf8Lossy b` is a string
for any bytes: what does not decode is replaced.  A byte
below `0x80` stands only for the character with that code (`mem_utf8`), so a byte string can be cut
at its zero bytes without changing whether it is UTF-8 (`isUtf8_append_zero`).
-/

namespace ByteString

/-- The bytes of a string. -/
def utf8 (s : String) : List UInt8 := s.toByteArray.data.toList

/-- The string that bytes encode. -/
def fromUtf8 (b : List UInt8) : Option String := String.fromUTF8? b.toByteArray

/-- Bytes that encode a string. -/
def IsUtf8 (b : List UInt8) : Prop := ∃ s, utf8 s = b

/-! ### Decoding inverts encoding -/

theorem fromUtf8_eq_some {b : List UInt8} {s : String} : fromUtf8 b = some s ↔ utf8 s = b := by
  rw [fromUtf8, String.fromUTF8?, utf8]
  constructor
  · intro h
    split_ifs at h with hb
    obtain rfl := Option.some.inj h
    exact List.toList_data_toByteArray
  · intro h
    have hb : b.toByteArray = s.toByteArray := by
      rw [← h]
      exact ByteArray.ext (by rw [List.data_toByteArray, Array.toArray_toList])
    rw [dif_pos (hb ▸ s.isValidUTF8)]
    exact congrArg some (String.toByteArray_inj.mp hb)

@[simp] theorem fromUtf8_utf8 (s : String) : fromUtf8 (utf8 s) = some s :=
  fromUtf8_eq_some.mpr rfl

theorem utf8_injective {s t : String} (h : utf8 s = utf8 t) : s = t :=
  Option.some.inj ((fromUtf8_utf8 s).symm.trans (h ▸ fromUtf8_utf8 t))

theorem fromUtf8_eq_none {b : List UInt8} : fromUtf8 b = none ↔ ¬ IsUtf8 b := by
  rw [Option.eq_none_iff_forall_ne_some, IsUtf8, not_exists]
  exact forall_congr' fun s => not_congr fromUtf8_eq_some

instance (b : List UInt8) : Decidable (IsUtf8 b) :=
  decidable_of_iff ((fromUtf8 b).isSome = true) (by
    rw [Option.isSome_iff_exists, IsUtf8]
    exact exists_congr fun s => fromUtf8_eq_some)

/-! ### Decoding any bytes -/

/-- The ranges that the bytes after a lead byte lie in; there are none after a byte that leads
nothing. -/
def continuations (lead : UInt8) : List (UInt8 × UInt8) :=
  if lead < 0xc2 then []
  else if lead < 0xe0 then [(0x80, 0xbf)]
  else if lead = 0xe0 then [(0xa0, 0xbf), (0x80, 0xbf)]
  else if lead = 0xed then [(0x80, 0x9f), (0x80, 0xbf)]
  else if lead < 0xf0 then [(0x80, 0xbf), (0x80, 0xbf)]
  else if lead = 0xf0 then [(0x90, 0xbf), (0x80, 0xbf), (0x80, 0xbf)]
  else if lead < 0xf4 then [(0x80, 0xbf), (0x80, 0xbf), (0x80, 0xbf)]
  else if lead = 0xf4 then [(0x80, 0x8f), (0x80, 0xbf), (0x80, 0xbf)]
  else []

/-- How many of the first bytes lie in their ranges. -/
def countContinuing : List (UInt8 × UInt8) → List UInt8 → Nat
  | range :: ranges, b :: bs =>
    if range.1 ≤ b ∧ b ≤ range.2 then countContinuing ranges bs + 1 else 0
  | _, _ => 0

/-- The characters that at most `rounds` sequences at the start encode, with U+FFFD for each that
encodes none. -/
def replaceInvalid : Nat → List UInt8 → String
  | rounds + 1, b :: bs =>
    let n := countContinuing (continuations b) bs
    (fromUtf8 (b :: bs.take n)).getD "\uFFFD" ++ replaceInvalid rounds (bs.drop n)
  | _, _ => ""

/-- `String::from_utf8_lossy`: the string that bytes encode, or what is left of one. -/
def fromUtf8Lossy (b : List UInt8) : String := (fromUtf8 b).getD (replaceInvalid b.length b)

@[simp] theorem fromUtf8Lossy_utf8 (s : String) : fromUtf8Lossy (utf8 s) = s := by
  unfold fromUtf8Lossy
  rw [fromUtf8_utf8, Option.getD_some]

-- one replacement for a sequence that breaks off, and one for each byte that leads nothing
example : fromUtf8Lossy [0x41, 0xf0, 0x90, 0x42, 0xc0, 0xaf] = "A\uFFFDB\uFFFD\uFFFD" := by decide

/-! ### Characters -/

theorem utf8_eq_flatMap (s : String) : utf8 s = s.toList.flatMap String.utf8EncodeChar := by
  rw [utf8, ← String.utf8Encode_toList, List.utf8Encode, List.toList_data_toByteArray]

theorem utf8_ofList (cs : List Char) :
    utf8 (String.ofList cs) = cs.flatMap String.utf8EncodeChar := by
  rw [utf8_eq_flatMap, String.toList_ofList]

@[simp] theorem utf8_empty : utf8 "" = [] := rfl

theorem utf8_append (s t : String) : utf8 (s ++ t) = utf8 s ++ utf8 t := by
  rw [utf8_eq_flatMap, String.toList_append, List.flatMap_append, utf8_eq_flatMap, utf8_eq_flatMap]

theorem utf8_eq_nil {s : String} : utf8 s = [] ↔ s = "" :=
  ⟨fun h => utf8_injective (h.trans utf8_empty.symm), fun h => h ▸ utf8_empty⟩

/-- A byte below `0x80` occurs only as the whole encoding of the character it stands for. -/
theorem utf8EncodeChar_of_mem {c : Char} {b : UInt8} (hb : b.toNat < 0x80)
    (h : b ∈ String.utf8EncodeChar c) :
    c.toNat = b.toNat ∧ String.utf8EncodeChar c = [b] := by
  have hbyte : ∀ n : Nat, b = .ofNat n → n % 256 = b.toNat := by
    intro n hn
    rw [hn, UInt8.toNat_ofNat']
  unfold String.utf8EncodeChar at h ⊢
  dsimp only at h ⊢
  split_ifs at h ⊢ with h1 h2 h3 <;> simp only [List.mem_cons, List.not_mem_nil, or_false] at h
  · have := hbyte _ h
    exact ⟨by rw [Char.toNat]; omega, by rw [h]⟩
  -- the first byte of a longer encoding is at least `0xc0`, the others are at least `0x80`
  · rcases h with h | h <;> have := hbyte _ h <;> omega
  · rcases h with h | h | h <;> have := hbyte _ h <;> omega
  · rcases h with h | h | h | h <;> have := hbyte _ h <;> omega

/-- A character below `0x80` is in a string exactly when its byte is in the encoding. -/
theorem mem_utf8 {s : String} {c : Char} (hc : c.toNat < 0x80) :
    UInt8.ofNat c.toNat ∈ utf8 s ↔ c ∈ s.toList := by
  have hbyte : (UInt8.ofNat c.toNat).toNat = c.toNat := by
    rw [UInt8.toNat_ofNat']
    omega
  rw [utf8_eq_flatMap, List.mem_flatMap]
  constructor
  · rintro ⟨c', hc', hmem⟩
    have heq := (utf8EncodeChar_of_mem (by omega) hmem).1
    rw [hbyte] at heq
    have : c' = c := Char.ext (UInt32.toNat_inj.mp heq)
    rwa [← this]
  · intro hmem
    have hle : c.val.toNat ≤ 0x7f := Nat.lt_succ_iff.mp hc
    refine ⟨c, hmem, ?_⟩
    unfold String.utf8EncodeChar
    dsimp only
    rw [if_pos hle]
    exact List.mem_singleton.mpr rfl

theorem zero_mem_utf8 {s : String} : 0 ∈ utf8 s ↔ '\x00' ∈ s.toList :=
  mem_utf8 (c := '\x00') (by decide)

/-! ### Cutting at zero bytes -/

theorem isUtf8_append {a b : List UInt8} (ha : IsUtf8 a) (hb : IsUtf8 b) : IsUtf8 (a ++ b) := by
  obtain ⟨s, rfl⟩ := ha
  obtain ⟨t, rfl⟩ := hb
  exact ⟨s ++ t, utf8_append s t⟩

/-- Both halves of an encoding cut at a zero byte are encodings. -/
theorem exists_of_flatMap_eq_append_zero {cs : List Char} {a b : List UInt8}
    (h : cs.flatMap String.utf8EncodeChar = a ++ 0 :: b) :
    ∃ cs₁ cs₂ : List Char, cs₁.flatMap String.utf8EncodeChar = a ∧
      cs₂.flatMap String.utf8EncodeChar = b := by
  induction cs generalizing a with
  | nil => simp at h
  | cons c cs ih =>
    rw [List.flatMap_cons] at h
    rcases List.append_eq_append_iff.mp h with ⟨a', rfl, hrest⟩ | ⟨t, hc, hrest⟩
    · -- the cut lies after the first character
      obtain ⟨cs₁, cs₂, rfl, rfl⟩ := ih hrest
      exact ⟨c :: cs₁, cs₂, rfl, rfl⟩
    cases t with
    | nil =>
      obtain ⟨cs₁, cs₂, h₁, rfl⟩ := ih (a := []) hrest.symm
      refine ⟨c :: cs₁, cs₂, ?_, rfl⟩
      rw [List.flatMap_cons, h₁, hc, List.append_nil, List.append_nil]
    | cons x t =>
      -- the cut lies in the first character, which therefore is NUL
      obtain ⟨rfl, hb⟩ := List.cons.inj hrest
      obtain ⟨_, hc0⟩ := utf8EncodeChar_of_mem (c := c) (b := 0) (by decide) (by simp [hc])
      obtain ⟨rfl, h0⟩ := List.append_eq_singleton_iff.mp (hc.symm.trans hc0) |>.resolve_right
        (by simp)
      obtain rfl := (List.cons.inj h0).2
      exact ⟨[], cs, rfl, hb.symm⟩

theorem isUtf8_append_zero {a b : List UInt8} :
    IsUtf8 (a ++ 0 :: b) ↔ IsUtf8 a ∧ IsUtf8 b := by
  constructor
  · rintro ⟨s, hs⟩
    rw [utf8_eq_flatMap] at hs
    obtain ⟨cs₁, cs₂, rfl, rfl⟩ := exists_of_flatMap_eq_append_zero hs
    exact ⟨⟨_, utf8_ofList cs₁⟩, ⟨_, utf8_ofList cs₂⟩⟩
  · rintro ⟨ha, hb⟩
    exact isUtf8_append ha (isUtf8_append (a := [0]) ⟨"\x00", rfl⟩ hb)

end ByteString
