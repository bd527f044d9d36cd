import Mathlib.Data.List.DropRight
import Mathlib.Data.Nat.Digits.Defs
import Peios.Bytes.Utf8

/-!
# Python's strings

A `str` is a list of code points, which need not be those of characters: a lone surrogate is one
too.  `splitWords s` is `s.split()`, `parseInt base s` is `int(s, base)` of ASCII characters without
whitespace, `decodeAscii`, `decodeUtf8` and `encodeUtf8` are the strict codecs, and files hold text
in UTF-8.

Words read back from a line (`splitWords_append_space`), numbers from their digits
(`parseInt_decimal`) and strings from their bytes (`decodeUtf8_of_encodeUtf8`).
-/

namespace Python

/-- A code point. -/
abbrev CodePoint := UInt32

/-- A string. -/
abbrev Str := List CodePoint

instance : LawfulBEq Str := inferInstance

/-- What is said of the elements of a list is tried on these, also where the type of them is finite.
-/
instance (priority := high) decidableForallMem {α : Type} {l : List α} {p : α → Prop}
    [DecidablePred p] : Decidable (∀ a ∈ l, p a) := List.decidableBAll p l

/-- The string of a literal. -/
def lit (s : String) : Str := s.toList.map Char.val

/-! ### Codecs -/

/-- `b.decode("ascii")`. -/
def decodeAscii (b : List UInt8) : Option Str :=
  if ∀ x ∈ b, x < 0x80 then some (b.map UInt8.toUInt32) else none

/-- `s.encode("ascii")`. -/
def encodeAscii (s : Str) : Option (List UInt8) :=
  if ∀ c ∈ s, c < 0x80 then some (s.map UInt32.toUInt8) else none

/-- The character with a code point, if it is one of a character. -/
def character (c : CodePoint) : Option Char := if h : c.isValidChar then some ⟨c, h⟩ else none

/-- `b.decode("utf-8")`. -/
def decodeUtf8 (b : List UInt8) : Option Str := (ByteString.fromUtf8 b).map lit

/-- `s.encode("utf-8")`. -/
def encodeUtf8 (s : Str) : Option (List UInt8) :=
  (s.mapM character).map fun cs => ByteString.utf8 (String.ofList cs)

variable {s : Str} {b : List UInt8}

theorem toUInt32_toUInt8 {c : CodePoint} (h : c < 0x80) : c.toUInt8.toUInt32 = c := by
  have hlt : c.toNat < 0x80 := h
  rw [← UInt32.toNat_inj, UInt8.toNat_toUInt32, UInt32.toNat_toUInt8]
  omega

/-- ASCII reads back. -/
theorem decodeAscii_of_encodeAscii (h : encodeAscii s = some b) : decodeAscii b = some s := by
  unfold encodeAscii at h
  split_ifs at h with hs
  obtain rfl := Option.some.inj h
  have hb : ∀ x ∈ s.map UInt32.toUInt8, x < 0x80 := by
    intro x hx
    obtain ⟨c, hc, rfl⟩ := List.mem_map.mp hx
    have hlt : c.toNat < 0x80 := hs c hc
    rw [UInt8.lt_iff_toNat_lt, UInt32.toNat_toUInt8]
    show c.toNat % 256 < 0x80
    omega
  unfold decodeAscii
  rw [if_pos hb, List.map_map]
  congr 1
  conv_rhs => rw [← List.map_id s]
  apply List.map_congr_left
  intro c hc
  exact toUInt32_toUInt8 (hs c hc)

theorem lt_of_decodeAscii (h : decodeAscii b = some s) : ∀ c ∈ s, c < 0x80 := by
  unfold decodeAscii at h
  split_ifs at h with hb
  obtain rfl := Option.some.inj h
  intro c hc
  obtain ⟨x, hx, rfl⟩ := List.mem_map.mp hc
  have hlt : x.toNat < 0x80 := hb x hx
  rw [UInt32.lt_iff_toNat_lt, UInt8.toNat_toUInt32]
  exact hlt

theorem lit_ofList {cs : List Char} (h : s.mapM character = some cs) :
    lit (String.ofList cs) = s := by
  unfold lit
  rw [String.toList_ofList]
  induction s generalizing cs with
  | nil =>
    obtain rfl := Option.some.inj h
    rfl
  | cons c s ih =>
    rw [List.mapM_cons] at h
    obtain ⟨d, hd, h⟩ := Option.bind_eq_some_iff.mp h
    obtain ⟨ds, hds, h⟩ := Option.bind_eq_some_iff.mp h
    obtain rfl := Option.some.inj h
    unfold character at hd
    split_ifs at hd
    obtain rfl := Option.some.inj hd
    rw [List.map_cons, ih hds]

/-- A string reads back from its bytes. -/
theorem decodeUtf8_of_encodeUtf8 (h : encodeUtf8 s = some b) : decodeUtf8 b = some s := by
  obtain ⟨cs, hcs, rfl⟩ := Option.map_eq_some_iff.mp h
  unfold decodeUtf8
  rw [ByteString.fromUtf8_utf8, Option.map_some, lit_ofList hcs]

theorem isValidChar_lit (t : String) : ∀ c ∈ lit t, c.isValidChar := by
  intro c hc
  obtain ⟨d, -, rfl⟩ := List.mem_map.mp hc
  exact d.valid

/-- What UTF-8 decodes to are characters. -/
theorem isValidChar_of_decodeUtf8 (h : decodeUtf8 b = some s) : ∀ c ∈ s, c.isValidChar := by
  obtain ⟨t, -, rfl⟩ := Option.map_eq_some_iff.mp h
  exact isValidChar_lit t

theorem encodeUtf8_isSome (h : ∀ c ∈ s, c.isValidChar) : ∃ b, encodeUtf8 s = some b := by
  have hmap : ∃ cs, s.mapM character = some cs := by
    induction s with
    | nil => exact ⟨[], rfl⟩
    | cons c s ih =>
      obtain ⟨hc, hs⟩ := List.forall_mem_cons.mp h
      obtain ⟨cs, hcs⟩ := ih hs
      refine ⟨⟨c, hc⟩ :: cs, ?_⟩
      rw [List.mapM_cons, character, dif_pos hc, hcs]
      rfl
  obtain ⟨cs, hcs⟩ := hmap
  exact ⟨_, by rw [encodeUtf8, hcs]; rfl⟩

/-! ### Text files -/

/-- Each end of a line as one line feed. -/
def universalNewlines : Str → Str
  | [] => []
  | [c] => [if c = 0xd then 0xa else c]
  | c :: d :: s =>
    if c = 0xd then
      if d = 0xa then 0xa :: universalNewlines s else 0xa :: universalNewlines (d :: s)
    else c :: universalNewlines (d :: s)

/-- `read_text()` of a file with content `b`. -/
def readText (b : List UInt8) : Option Str := (decodeUtf8 b).map universalNewlines

theorem universalNewlines_eq_self (h : 0xd ∉ s) : universalNewlines s = s := by
  fun_induction universalNewlines s with
  | case1 => rfl
  | case2 c =>
    have hc : c ≠ 0xd := fun hc => h (hc ▸ List.mem_cons_self ..)
    rw [if_neg hc]
  | case3 => simp at h
  | case4 => simp at h
  | case5 c d s hc ih => rw [ih fun hd => h (List.mem_cons_of_mem c hd)]

/-- Text without a carriage return reads back. -/
theorem readText_of_encodeUtf8 (hs : 0xd ∉ s) (h : encodeUtf8 s = some b) :
    readText b = some s := by
  unfold readText
  rw [decodeUtf8_of_encodeUtf8 h, Option.map_some, universalNewlines_eq_self hs]

/-! ### Words -/

/-- `c.isspace()`. -/
def isSpace (c : CodePoint) : Bool :=
  (0x9 ≤ c ∧ c ≤ 0xd) ∨ (0x1c ≤ c ∧ c ≤ 0x20) ∨ c = 0x85 ∨ c = 0xa0 ∨ c = 0x1680 ∨
    (0x2000 ≤ c ∧ c ≤ 0x200a) ∨ c ∈ [0x2028, 0x2029, 0x202f, 0x205f, 0x3000]

/-- `s.split()`. -/
def splitWords (s : Str) : List Str := (s.splitOnP isSpace).filter (¬ ·.isEmpty)

/-- `s.strip()`. -/
def strip (s : Str) : Str := (s.dropWhile isSpace).rdropWhile isSpace

/-- Characters with no whitespace between them. -/
def IsWord (w : Str) : Prop := w ≠ [] ∧ ∀ c ∈ w, isSpace c = false

instance (w : Str) : Decidable (IsWord w) := inferInstanceAs (Decidable (_ ∧ _))

theorem splitWords_of_isWord {w : Str} (hw : IsWord w) : splitWords w = [w] := by
  unfold splitWords
  rw [List.splitOnP_eq_singleton hw.2]
  simp [hw.1]

/-- A word and the space after it. -/
theorem splitWords_append_space {w : Str} (hw : IsWord w) (rest : Str) :
    splitWords (w ++ 0x20 :: rest) = w :: splitWords rest := by
  unfold splitWords
  rw [List.splitOnP_append_cons_of_forall_mem hw.2 0x20 (by decide)]
  simp [hw.1]

/-- There is no separator in what a list is split into. -/
theorem eq_false_of_mem_splitOnP {α : Type} {p : α → Bool} {l : List α} :
    ∀ w ∈ l.splitOnP p, ∀ x ∈ w, p x = false := by
  induction l with
  | nil => simp
  | cons y l ih =>
    rw [List.splitOnP_cons_eq_if_modifyHead]
    split_ifs with hy
    · simpa using ih
    · cases hsplit : l.splitOnP p with
      | nil => simp
      | cons v vs =>
        rw [hsplit, List.forall_mem_cons] at ih
        rw [List.modifyHead_cons, List.forall_mem_cons, List.forall_mem_cons]
        exact ⟨⟨by simpa using hy, ih.1⟩, ih.2⟩

/-- What a string is split into are words. -/
theorem isWord_of_mem_splitWords : ∀ w ∈ splitWords s, IsWord w := by
  intro w hw
  unfold splitWords at hw
  rw [List.mem_filter] at hw
  exact ⟨by simpa using hw.2, eq_false_of_mem_splitOnP w hw.1⟩

/-- The characters of its words are those of a string. -/
theorem mem_of_mem_splitOnP {α : Type} {p : α → Bool} {l w : List α} {x : α}
    (hw : w ∈ l.splitOnP p) (hx : x ∈ w) : x ∈ l := by
  induction l generalizing w with
  | nil =>
    rw [List.splitOnP_nil, List.mem_singleton] at hw
    rw [hw] at hx
    cases hx
  | cons y l ih =>
    rw [List.splitOnP_cons_eq_if_modifyHead] at hw
    split_ifs at hw with hy
    · rcases List.mem_cons.mp hw with rfl | hw
      · cases hx
      · exact List.mem_cons_of_mem y (ih hw hx)
    · cases hsplit : l.splitOnP p with
      | nil => exact absurd hsplit (List.splitOnP_ne_nil p l)
      | cons v vs =>
        rw [hsplit, List.modifyHead_cons] at hw
        rw [hsplit] at ih
        rcases List.mem_cons.mp hw with rfl | hw
        · rcases List.mem_cons.mp hx with rfl | hx
          · exact List.mem_cons_self ..
          · exact List.mem_cons_of_mem y (ih (List.mem_cons_self ..) hx)
        · exact List.mem_cons_of_mem y (ih (List.mem_cons_of_mem v hw) hx)

theorem mem_of_mem_splitWords {w : Str} (hw : w ∈ splitWords s) {c : CodePoint} (hc : c ∈ w) :
    c ∈ s := mem_of_mem_splitOnP (List.mem_filter.mp hw).1 hc

/-! ### Numbers -/

/-- The number that a digit stands for. -/
def digit (base : Nat) (c : CodePoint) : Option Nat :=
  if 0x30 ≤ c ∧ c ≤ 0x39 ∧ c.toNat - 0x30 < base then some (c.toNat - 0x30) else none

/-- A number written in digits, with single underscores between them. -/
def parseNat (base : Nat) (s : Str) : Option Nat :=
  let groups := s.splitOn 0x5f
  if [] ∈ groups then none
  else (groups.flatten.mapM (digit base)).map fun ds => Nat.ofDigits base ds.reverse

/-- `int(s, base)`, for bases up to 10 and numbers without a prefix. -/
def parseInt (base : Nat) : Str → Option Int
  | [] => none
  | c :: s =>
    if c = 0x2d then (parseNat base s).map fun n => -(n : Int)
    else if c = 0x2b then (parseNat base s).map Int.ofNat
    else (parseNat base (c :: s)).map Int.ofNat

/-- `str(n)`. -/
def decimal (n : Nat) : Str :=
  if n = 0 then [0x30] else (Nat.digits 10 n).reverse.map fun d => 0x30 + .ofNat d

/-- A digit reads back. -/
theorem digit_ofNat : ∀ d < 10, digit 10 (0x30 + .ofNat d) = some d := by decide

/-- A digit is neither a sign nor an underscore. -/
theorem digit_ne : ∀ d < 10, (0x30 : CodePoint) + .ofNat d ∉ [0x2b, 0x2d, 0x5f] := by decide

/-- Digits stand for the number they are the digits of. -/
theorem parseNat_map {ds : List Nat} (hne : ds ≠ []) (hds : ∀ d ∈ ds, d < 10) :
    parseNat 10 (ds.map fun d => 0x30 + .ofNat d) = some (Nat.ofDigits 10 ds.reverse) := by
  have hmem : (0x5f : CodePoint) ∉ ds.map fun d => 0x30 + .ofNat d := by
    intro h
    obtain ⟨d, hd, heq⟩ := List.mem_map.mp h
    exact digit_ne d (hds d hd) (heq ▸ by simp)
  have hdigits : ∀ l : List Nat, (∀ d ∈ l, d < 10) →
      (l.map fun d => (0x30 : CodePoint) + .ofNat d).mapM (digit 10) = some l := by
    intro l
    induction l with
    | nil => simp
    | cons d l ih =>
      intro hl
      obtain ⟨hd, hl⟩ := List.forall_mem_cons.mp hl
      rw [List.map_cons, List.mapM_cons, digit_ofNat d hd, ih hl]
      rfl
  have hgroup : [] ∉ [ds.map fun d => (0x30 : CodePoint) + .ofNat d] := by simp [hne]
  unfold parseNat
  dsimp only
  rw [List.splitOn_eq_singleton hmem, if_neg hgroup, List.flatten_singleton, hdigits ds hds]
  rfl

theorem decimal_eq (n : Nat) : ∃ ds, ds ≠ [] ∧ (∀ d ∈ ds, d < 10) ∧
    decimal n = (ds.map fun d => 0x30 + .ofNat d) ∧ Nat.ofDigits 10 ds.reverse = n := by
  unfold decimal
  split_ifs with hn
  · exact ⟨[0], by simp, by simp, rfl, by simp [hn]⟩
  · refine ⟨(Nat.digits 10 n).reverse, ?_, ?_, rfl, ?_⟩
    · rw [Ne, List.reverse_eq_nil_iff]
      exact Nat.digits_ne_nil_iff_ne_zero.mpr hn
    · intro d hd
      exact Nat.digits_lt_base (by decide) (List.mem_reverse.mp hd)
    · rw [List.reverse_reverse, Nat.ofDigits_digits]

/-- A number reads back. -/
theorem parseInt_decimal (n : Nat) : parseInt 10 (decimal n) = some n := by
  obtain ⟨ds, hne, hds, heq, hn⟩ := decimal_eq n
  have hparse := parseNat_map hne hds
  rw [heq]
  cases ds with
  | nil => exact absurd rfl hne
  | cons d ds =>
    obtain ⟨hd, -⟩ := List.forall_mem_cons.mp hds
    have hsign := digit_ne d hd
    simp only [List.mem_cons, List.not_mem_nil, or_false, not_or] at hsign
    rw [List.map_cons] at hparse ⊢
    simp only [parseInt]
    rw [if_neg hsign.2.1, if_neg hsign.1, hparse, hn]
    rfl

/-- The digits of a number are one word, of ASCII characters. -/
theorem isWord_decimal (n : Nat) : IsWord (decimal n) ∧ ∀ c ∈ decimal n, c < 0x80 := by
  obtain ⟨ds, hne, hds, heq, -⟩ := decimal_eq n
  have hdigit : ∀ d < 10, isSpace (0x30 + .ofNat d) = false ∧
      (0x30 : CodePoint) + .ofNat d < 0x80 := by decide
  rw [heq]
  refine ⟨⟨by simpa using hne, ?_⟩, ?_⟩
  · intro c hc
    obtain ⟨d, hd, rfl⟩ := List.mem_map.mp hc
    exact (hdigit d (hds d hd)).1
  · intro c hc
    obtain ⟨d, hd, rfl⟩ := List.mem_map.mp hc
    exact (hdigit d (hds d hd)).2

end Python
