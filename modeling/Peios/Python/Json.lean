import Peios.Python.Dict
import Peios.Python.Str

/-!
# JSON in Python

A `Value` is what a JSON text stands for: numbers are kept as they are written, and an object as its
members in the order of the text, which `dict?` makes a dictionary.  `dumps v` is
`json.dumps(v, indent=2)` and `loads s` is `json.loads(s)`.

A text that was written reads back (`loads_dumps`), where strings hold no surrogates and there are
no numbers.  By mutual induction on the value: what is read off the front of its text is the value,
and what follows is left.
-/

namespace Python.Json

/-- What a JSON text stands for. -/
inductive Value where
  | null
  | bool (b : Bool)
  | number (literal : Str)
  | string (s : Str)
  | array (elements : List Value)
  | object (members : List (Str × Value))

namespace Value

/-- The string that a value is. -/
def string? : Value → Option Str
  | string s => some s
  | _ => none

/-- The strings that a value is a list of. -/
def strings? : Value → Option (List Str)
  | array elements => elements.mapM string?
  | _ => none

/-- The dictionary that a value is: the last member with a name counts. -/
def dict? : Value → Option (Dict Str Value)
  | object members => some (.ofList members)
  | _ => none

end Value

/-! ### Writing -/

/-- A digit in base 16. -/
def hexDigit (n : Nat) : CodePoint := .ofNat (if n < 10 then 0x30 + n else 0x57 + n)

/-- The digits of a 16-bit unit. -/
def unitDigits (n : Nat) : Str :=
  [hexDigit (n / 4096 % 16), hexDigit (n / 256 % 16), hexDigit (n / 16 % 16), hexDigit (n % 16)]

/-- A 16-bit unit as an escape sequence. -/
def escapeUnit (n : Nat) : Str := 0x5c :: 0x75 :: unitDigits n

/-- The characters that a letter after a backslash stands for. -/
def escapes : List (CodePoint × CodePoint) :=
  [(0x22, 0x22), (0x5c, 0x5c), (0x2f, 0x2f), (0x62, 0x8), (0x66, 0xc), (0x6e, 0xa), (0x72, 0xd),
    (0x74, 0x9)]

/-- A character in ASCII. -/
def escape (c : CodePoint) : Str :=
  if c = 0x22 then [0x5c, 0x22]
  else if c = 0x5c then [0x5c, 0x5c]
  else if c = 0xa then [0x5c, 0x6e]
  else if c = 0xd then [0x5c, 0x72]
  else if c = 0x9 then [0x5c, 0x74]
  else if c = 0xc then [0x5c, 0x66]
  else if c = 0x8 then [0x5c, 0x62]
  else if 0x20 ≤ c ∧ c ≤ 0x7e then [c]
  else if c < 0x10000 then escapeUnit c.toNat
  else
    let v := c.toNat - 0x10000
    escapeUnit (0xd800 + v / 0x400 % 0x400) ++ escapeUnit (0xdc00 + v % 0x400)

/-- A string in quotes. -/
def quoted (s : Str) : Str := 0x22 :: (s.flatMap escape ++ [0x22])

/-- The end of a line and the indentation of the next. -/
def newline (level : Nat) : Str := 0xa :: .replicate (2 * level) 0x20

mutual

/-- The text of a value. -/
def render (level : Nat) : Value → Str
  | .null => lit "null"
  | .bool true => lit "true"
  | .bool false => lit "false"
  | .number literal => literal
  | .string s => quoted s
  | .array [] => [0x5b, 0x5d]
  | .array (v :: vs) =>
    0x5b :: (newline (level + 1) ++ renderElements (level + 1) (v :: vs) ++ newline level ++ [0x5d])
  | .object [] => [0x7b, 0x7d]
  | .object (m :: ms) =>
    0x7b :: (newline (level + 1) ++ renderMembers (level + 1) (m :: ms) ++ newline level ++ [0x7d])

/-- The text of a list, between the brackets. -/
def renderElements (level : Nat) : List Value → Str
  | [] => []
  | [v] => render level v
  | v :: w :: vs => render level v ++ 0x2c :: (newline level ++ renderElements level (w :: vs))

/-- The text of an object, between the braces. -/
def renderMembers (level : Nat) : List (Str × Value) → Str
  | [] => []
  | [(name, v)] => quoted name ++ 0x3a :: 0x20 :: render level v
  | (name, v) :: m :: ms => quoted name ++ 0x3a :: 0x20 :: (render level v
      ++ 0x2c :: (newline level ++ renderMembers level (m :: ms)))

end

/-- `json.dumps(v, indent=2)`. -/
def dumps (v : Value) : Str := render 0 v

/-! ### Reading -/

/-- A character that separates tokens. -/
def isBlank (c : CodePoint) : Bool := c = 0x20 ∨ c = 0x9 ∨ c = 0xa ∨ c = 0xd

/-- Past the blanks at the start. -/
def skip (s : Str) : Str := s.dropWhile isBlank

/-- The number that a digit in base 16 stands for. -/
def hexValue (c : CodePoint) : Option Nat :=
  if 0x30 ≤ c ∧ c ≤ 0x39 then some (c.toNat - 0x30)
  else if 0x61 ≤ c ∧ c ≤ 0x66 then some (c.toNat - 0x57)
  else if 0x41 ≤ c ∧ c ≤ 0x46 then some (c.toNat - 0x37)
  else none

/-- The 16-bit unit that four digits stand for. -/
def scanUnit : Str → Option (Nat × Str)
  | c₀ :: c₁ :: c₂ :: c₃ :: rest => do
    let d₀ ← hexValue c₀
    let d₁ ← hexValue c₁
    let d₂ ← hexValue c₂
    let d₃ ← hexValue c₃
    return (d₀ * 4096 + d₁ * 256 + d₂ * 16 + d₃, rest)
  | _ => none

/-- The second half of a surrogate pair. -/
def scanLow : Str → Option (Nat × Str)
  | b :: u :: rest =>
    if b = 0x5c ∧ u = 0x75 then
      (scanUnit rest).filter fun low => 0xdc00 ≤ low.1 ∧ low.1 ≤ 0xdfff
    else none
  | _ => none

/-- The character that stands after a backslash. -/
def scanEscape : Str → Option (CodePoint × Str)
  | [] => none
  | c :: rest =>
    if c = 0x75 then do
      let (unit, rest) ← scanUnit rest
      if 0xd800 ≤ unit ∧ unit ≤ 0xdbff then
        match scanLow rest with
        | some (low, rest) =>
          return (.ofNat (0x10000 + (unit - 0xd800) * 0x400 + (low - 0xdc00)), rest)
        | none => return (.ofNat unit, rest)
      else return (.ofNat unit, rest)
    else (escapes.lookup c).map fun x => (x, rest)

/-- The characters of a string up to its closing quote. -/
def scanChars : Nat → Str → Option (Str × Str)
  | 0, _ => none
  | _ + 1, [] => none
  | fuel + 1, c :: rest =>
    if c = 0x22 then some ([], rest)
    else if c = 0x5c then do
      let (x, rest) ← scanEscape rest
      let (xs, rest) ← scanChars fuel rest
      return (x :: xs, rest)
    else if c < 0x20 then none
    else do
      let (xs, rest) ← scanChars fuel rest
      return (c :: xs, rest)

/-- The string whose opening quote has been read. -/
def scanString (s : Str) : Option (Str × Str) := scanChars (s.length + 1) s

/-- The digits at the start. -/
def scanDigits (s : Str) : Str × Str := s.span fun c => 0x30 ≤ c ∧ c ≤ 0x39

/-- The number at the start, as it is written. -/
def scanNumber (s : Str) : Option (Str × Str) :=
  let (sign, s) : Str × Str := if s.head? = some 0x2d then ([0x2d], s.tail) else ([], s)
  let (whole, s) : Str × Str := if s.head? = some 0x30 then ([0x30], s.tail) else scanDigits s
  let (fraction, s) : Str × Str :=
    let (digits, rest) := scanDigits s.tail
    if s.head? = some 0x2e ∧ digits ≠ [] then (0x2e :: digits, rest) else ([], s)
  let (exponent, s) : Str × Str :=
    let after := s.tail
    let (sign, after) : Str × Str :=
      if after.head? ∈ [some 0x2b, some 0x2d] then (after.take 1, after.tail) else ([], after)
    let (digits, rest) := scanDigits after
    if s.head? ∈ [some 0x65, some 0x45] ∧ digits ≠ [] then (s.take 1 ++ sign ++ digits, rest)
    else ([], s)
  if whole = [] then none else some (sign ++ whole ++ fraction ++ exponent, s)

/-- The values that are words. -/
def words : List (Str × Value) :=
  [(lit "null", .null), (lit "true", .bool true), (lit "false", .bool false),
    (lit "NaN", .number (lit "NaN")), (lit "Infinity", .number (lit "Infinity")),
    (lit "-Infinity", .number (lit "-Infinity"))]

mutual

/-- The value at the start. -/
def scanOnce : Nat → Str → Option (Value × Str)
  | 0, _ => none
  | _ + 1, [] => none
  | fuel + 1, c :: rest =>
    if c = 0x22 then (scanString rest).map fun (s, rest) => (.string s, rest)
    else if c = 0x7b then
      if (skip rest).head? = some 0x7d then some (.object [], (skip rest).tail)
      else (scanMembers fuel (skip rest)).map fun (ms, rest) => (.object ms, rest)
    else if c = 0x5b then
      if (skip rest).head? = some 0x5d then some (.array [], (skip rest).tail)
      else (scanElements fuel (skip rest)).map fun (vs, rest) => (.array vs, rest)
    else match words.find? fun w => w.1.isPrefixOf (c :: rest) with
      | some w => some (w.2, (c :: rest).drop w.1.length)
      | none => (scanNumber (c :: rest)).map fun (literal, rest) => (.number literal, rest)

/-- The elements of a list up to its closing bracket. -/
def scanElements : Nat → Str → Option (List Value × Str)
  | 0, _ => none
  | fuel + 1, s => do
    let (v, rest) ← scanOnce fuel s
    match skip rest with
    | [] => none
    | c :: rest =>
      if c = 0x5d then return ([v], rest)
      else if c = 0x2c then
        let (vs, rest) ← scanElements fuel (skip rest)
        return (v :: vs, rest)
      else none

/-- The members of an object up to its closing brace. -/
def scanMembers : Nat → Str → Option (List (Str × Value) × Str)
  | 0, _ => none
  | _ + 1, [] => none
  | fuel + 1, c :: rest => do
    if c ≠ 0x22 then none
    let (name, rest) ← scanString rest
    match skip rest with
    | [] => none
    | c :: rest =>
      if c ≠ 0x3a then none
      let (v, rest) ← scanOnce fuel (skip rest)
      match skip rest with
      | [] => none
      | c :: rest =>
        if c = 0x7d then return ([(name, v)], rest)
        else if c = 0x2c then
          let (ms, rest) ← scanMembers fuel (skip rest)
          return ((name, v) :: ms, rest)
        else none

end

/-- `json.loads(s)`. -/
def loads (s : Str) : Option Value := do
  -- a byte order mark is refused
  if s.head? = some 0xfeff then none
  let (v, rest) ← scanOnce (s.length + 1) (skip s)
  if skip rest = [] then some v else none

/-! ### What was written reads back -/

theorem hexValue_hexDigit : ∀ d < 16, hexValue (hexDigit d) = some d := by decide

theorem scanUnit_unitDigits {n : Nat} (hn : n < 0x10000) (rest : Str) :
    scanUnit (unitDigits n ++ rest) = some (n, rest) := by
  have hdigit : ∀ d, hexValue (hexDigit (d % 16)) = some (d % 16) := fun d =>
    hexValue_hexDigit _ (Nat.mod_lt d (by decide))
  simp only [unitDigits, List.cons_append, List.nil_append, scanUnit, hdigit, Option.bind_eq_bind,
    Option.bind_some, Option.pure_def, Option.some.injEq, Prod.mk.injEq, and_true]
  omega

/-- A unit that is not the first of a pair. -/
theorem scanEscape_unit {n : Nat} (hn : n < 0x10000) (hhigh : ¬ (0xd800 ≤ n ∧ n ≤ 0xdbff))
    (rest : Str) : scanEscape (0x75 :: unitDigits n ++ rest) = some (.ofNat n, rest) := by
  simp only [List.cons_append, scanEscape, if_true, scanUnit_unitDigits hn, Option.bind_eq_bind,
    Option.bind_some, if_neg hhigh, Option.pure_def]

/-- A pair of units. -/
theorem scanEscape_pair {high low : Nat} (hhigh : high < 0x400) (hlow : low < 0x400) (rest : Str) :
    scanEscape (0x75 :: unitDigits (0xd800 + high) ++ escapeUnit (0xdc00 + low) ++ rest)
      = some (.ofNat (0x10000 + high * 0x400 + low), rest) := by
  have hsecond : scanLow (escapeUnit (0xdc00 + low) ++ rest) = some (0xdc00 + low, rest) := by
    have hrange : 0xdc00 ≤ 0xdc00 + low ∧ 0xdc00 + low ≤ 0xdfff := by omega
    simp only [escapeUnit, List.cons_append, scanLow, and_self, if_true,
      scanUnit_unitDigits (show 0xdc00 + low < 0x10000 by omega), Option.filter_some, hrange,
      decide_true]
  have hrange : 0xd800 ≤ 0xd800 + high ∧ 0xd800 + high ≤ 0xdbff := by omega
  simp only [List.cons_append, List.append_assoc, scanEscape, if_true,
    scanUnit_unitDigits (show 0xd800 + high < 0x10000 by omega), Option.bind_eq_bind,
    Option.bind_some, if_pos hrange, hsecond, Option.pure_def, Nat.add_sub_cancel_left]

/-- How a character is written: as it is, as a letter after a backslash, or as one or two units. -/
theorem escape_cases (c : CodePoint) :
    (escape c = [c] ∧ (0x20 ≤ c ∧ c ≤ 0x7e) ∧ c ≠ 0x22 ∧ c ≠ 0x5c) ∨
      (∃ x, escape c = [0x5c, x] ∧ (0x20 ≤ x ∧ x ≤ 0x7e) ∧ x ≠ 0x75 ∧
        escapes.lookup x = some c) ∨
      (c.toNat < 0x10000 ∧ escape c = escapeUnit c.toNat) ∨
      (0x10000 ≤ c.toNat ∧
        escape c = escapeUnit (0xd800 + (c.toNat - 0x10000) / 0x400 % 0x400) ++
          escapeUnit (0xdc00 + (c.toNat - 0x10000) % 0x400)) := by
  have hletter : ∀ e ∈ escapes, e.1 ≠ 0x2f → escape e.2 = [0x5c, e.1] ∧
      (0x20 ≤ e.1 ∧ e.1 ≤ 0x7e) ∧ e.1 ≠ 0x75 ∧ escapes.lookup e.1 = some e.2 := by decide
  by_cases hmem : ∃ e ∈ escapes, e.1 ≠ 0x2f ∧ e.2 = c
  · obtain ⟨e, he, hslash, rfl⟩ := hmem
    exact .inr (.inl ⟨e.1, hletter e he hslash⟩)
  · have hother : ∀ x, (∃ e ∈ escapes, e.1 ≠ 0x2f ∧ e.2 = x) → c ≠ x := by
      rintro x hx rfl
      exact hmem hx
    have hquote : c ≠ 0x22 := hother _ (by decide)
    have hback : c ≠ 0x5c := hother _ (by decide)
    unfold escape
    rw [if_neg hquote, if_neg hback, if_neg (hother _ (by decide)), if_neg (hother _ (by decide)),
      if_neg (hother _ (by decide)), if_neg (hother _ (by decide)), if_neg (hother _ (by decide))]
    split_ifs with hplain hunit
    · exact .inl ⟨rfl, hplain, hquote, hback⟩
    · exact .inr (.inr (.inl ⟨hunit, rfl⟩))
    · exact .inr (.inr (.inr ⟨not_lt.mp fun h => hunit h, rfl⟩))

/-- Where it is not written as it is, what comes after the backslash reads back. -/
theorem escape_eq {c : CodePoint} (hc : c.isValidChar) :
    (escape c = [c] ∧ 0x20 ≤ c ∧ c ≠ 0x22 ∧ c ≠ 0x5c) ∨
      ∃ e, escape c = 0x5c :: e ∧ ∀ rest, scanEscape (e ++ rest) = some (c, rest) := by
  have hnat : UInt32.ofNat c.toNat = c := UInt32.ofNat_toNat
  have hvalid : c.toNat < 0xd800 ∨ (0xdfff < c.toNat ∧ c.toNat < 0x110000) := hc
  rcases escape_cases c with ⟨heq, ⟨hge, -⟩, hquote, hback⟩ | ⟨x, heq, -, hunit, hlookup⟩ |
    ⟨hlt, heq⟩ | ⟨hle, heq⟩
  · exact .inl ⟨heq, hge, hquote, hback⟩
  · refine .inr ⟨[x], heq, fun rest => ?_⟩
    rw [List.singleton_append, scanEscape, if_neg hunit, hlookup]
    rfl
  · refine .inr ⟨0x75 :: unitDigits c.toNat, heq, fun rest => ?_⟩
    rw [scanEscape_unit hlt (by omega), hnat]
  · refine .inr ⟨_, heq, fun rest => ?_⟩
    have hhigh : (c.toNat - 0x10000) / 0x400 % 0x400 < 0x400 := Nat.mod_lt _ (by decide)
    have hlow : (c.toNat - 0x10000) % 0x400 < 0x400 := Nat.mod_lt _ (by decide)
    have hsum : 0x10000 + (c.toNat - 0x10000) / 0x400 % 0x400 * 0x400 + (c.toNat - 0x10000) % 0x400
        = c.toNat := by omega
    have hpair := scanEscape_pair hhigh hlow rest
    rw [hsum, hnat] at hpair
    exact hpair

theorem scanChars_escape {c : CodePoint} (hc : c.isValidChar) (fuel : Nat) (rest : Str) :
    scanChars (fuel + 1) (escape c ++ rest)
      = (scanChars fuel rest).map fun r => (c :: r.1, r.2) := by
  rcases escape_eq hc with ⟨heq, hge, hquote, hback⟩ | ⟨e, heq, he⟩
  · have hlt : ¬ c < 0x20 := by
      rw [UInt32.not_lt]
      exact hge
    rw [heq, List.singleton_append]
    simp only [scanChars, if_neg hquote, if_neg hback, if_neg hlt]
    cases scanChars fuel rest with
    | none => rfl
    | some r => rfl
  · have hback : (0x5c : CodePoint) ≠ 0x22 := by decide
    rw [heq, List.cons_append]
    simp only [scanChars, if_neg hback, if_true, he, Option.bind_eq_bind, Option.bind_some]
    cases scanChars fuel rest with
    | none => rfl
    | some r => rfl

theorem escape_ne_nil (c : CodePoint) : escape c ≠ [] := by
  rcases escape_cases c with ⟨heq, -⟩ | ⟨x, heq, -⟩ | ⟨-, heq⟩ | ⟨-, heq⟩
  · simp [heq]
  · simp [heq]
  · simp [heq, escapeUnit]
  · simp [heq, escapeUnit]

theorem length_le_flatMap_escape (s : Str) : s.length ≤ (s.flatMap escape).length := by
  induction s with
  | nil => simp
  | cons c s ih =>
    have hpos := List.length_pos_iff.mpr (escape_ne_nil c)
    rw [List.flatMap_cons, List.length_append, List.length_cons]
    omega

/-- A string reads back. -/
theorem scanString_quoted {s : Str} (hs : ∀ c ∈ s, c.isValidChar) (rest : Str) :
    scanString (s.flatMap escape ++ 0x22 :: rest) = some (s, rest) := by
  have hchars : ∀ (s : Str) (fuel : Nat), (∀ c ∈ s, c.isValidChar) → s.length < fuel →
      scanChars fuel (s.flatMap escape ++ 0x22 :: rest) = some (s, rest) := by
    intro s
    induction s with
    | nil =>
      intro fuel _ hfuel
      obtain ⟨fuel, rfl⟩ := Nat.exists_eq_add_of_lt hfuel
      rfl
    | cons c s ih =>
      intro fuel hs hfuel
      obtain ⟨hc, hs⟩ := List.forall_mem_cons.mp hs
      cases fuel with
      | zero => exact absurd hfuel (Nat.not_lt_zero _)
      | succ fuel =>
        rw [List.flatMap_cons, List.append_assoc, scanChars_escape hc,
          ih fuel hs (Nat.lt_of_succ_lt_succ hfuel)]
        rfl
  apply hchars s _ hs
  have hlength := length_le_flatMap_escape s
  rw [List.length_append]
  omega

theorem skip_cons {c : CodePoint} (hc : isBlank c = false) (s : Str) : skip (c :: s) = c :: s := by
  unfold skip
  rw [List.dropWhile_cons_of_neg (by simp [hc])]

/-- Indentation is skipped. -/
theorem skip_newline {c : CodePoint} (hc : isBlank c = false) (level : Nat) (s : Str) :
    skip (newline level ++ c :: s) = c :: s := by
  have hblank : ∀ x ∈ newline level, isBlank x = true := by
    intro x hx
    rcases List.mem_cons.mp hx with rfl | hx
    · rfl
    · rw [List.eq_of_mem_replicate hx]
      rfl
  unfold skip
  rw [List.dropWhile_append_of_pos hblank]
  exact skip_cons hc s

/-- Values without numbers, whose strings hold no surrogates. -/
inductive Plain : Value → Prop where
  | null : Plain .null
  | bool (b : Bool) : Plain (.bool b)
  | string {s : Str} (hs : ∀ c ∈ s, c.isValidChar) : Plain (.string s)
  | array {vs : List Value} (hvs : ∀ v ∈ vs, Plain v) : Plain (.array vs)
  | object {ms : List (Str × Value)} (hnames : ∀ m ∈ ms, ∀ c ∈ m.1, c.isValidChar)
      (hms : ∀ m ∈ ms, Plain m.2) : Plain (.object ms)

/-- The text of a value does not begin with a blank, nor with the end of a list. -/
theorem render_eq_cons {v : Value} (hv : Plain v) (level : Nat) :
    ∃ c s, render level v = c :: s ∧ isBlank c = false ∧ c ≠ 0x5d := by
  have hcons : ∀ c s, isBlank c = false ∧ c ≠ 0x5d → ∃ c' s', (c :: s : Str) = c' :: s' ∧
      isBlank c' = false ∧ c' ≠ 0x5d := fun c s h => ⟨c, s, rfl, h⟩
  cases hv with
  | null => exact hcons 0x6e _ (by decide)
  | bool b =>
    cases b with
    | false => exact hcons 0x66 _ (by decide)
    | true => exact hcons 0x74 _ (by decide)
  | string hs => exact hcons 0x22 _ (by decide)
  | @array vs hvs =>
    cases vs with
    | nil => exact hcons 0x5b _ (by decide)
    | cons v vs =>
      rw [render]
      exact hcons 0x5b _ (by decide)
  | @object ms hnames hms =>
    cases ms with
    | nil => exact hcons 0x7b _ (by decide)
    | cons m ms =>
      rw [render]
      exact hcons 0x7b _ (by decide)

/-- The elements of a list begin as the first one does. -/
theorem renderElements_eq_cons {v : Value} {level : Nat} {c : CodePoint} {s : Str}
    (vs : List Value) (h : render level v = c :: s) :
    ∃ s', renderElements level (v :: vs) = c :: s' := by
  cases vs with
  | nil => exact ⟨s, h⟩
  | cons w ws =>
    rw [renderElements, h]
    exact ⟨_, rfl⟩

/-- The members of an object begin with a name. -/
theorem renderMembers_eq_cons (level : Nat) (m : Str × Value) (ms : List (Str × Value)) :
    ∃ s', renderMembers level (m :: ms) = 0x22 :: s' := by
  cases ms with
  | nil => exact ⟨_, rfl⟩
  | cons x xs => exact ⟨_, rfl⟩

/-- The value is read off the front of its text. -/
def Reads (v : Value) : Prop :=
  ∀ level fuel rest, (render level v).length < fuel →
    scanOnce fuel (render level v ++ rest) = some (v, rest)

/-- The elements of a list are, when each one is. -/
theorem scanElements_render {vs : List Value} (hne : vs ≠ []) (hplain : ∀ v ∈ vs, Plain v)
    (hreads : ∀ v ∈ vs, Reads v) (level outer fuel : Nat) (rest : Str)
    (hfuel : (renderElements level vs).length + 1 < fuel) :
    scanElements fuel (renderElements level vs ++ (newline outer ++ 0x5d :: rest))
      = some (vs, rest) := by
  have hclose := skip_newline (c := 0x5d) (by decide) outer rest
  induction vs generalizing fuel with
  | nil => exact absurd rfl hne
  | cons v vs ih =>
    obtain ⟨-, hplain⟩ := List.forall_mem_cons.mp hplain
    obtain ⟨hv, hreads⟩ := List.forall_mem_cons.mp hreads
    cases fuel with
    | zero => exact absurd hfuel (Nat.not_lt_zero _)
    | succ fuel =>
    cases vs with
    | nil =>
      rw [renderElements] at hfuel ⊢
      rw [scanElements, hv level fuel _ (by omega)]
      simp only [Option.bind_eq_bind, Option.bind_some, hclose]
      rfl
    | cons w ws =>
      obtain ⟨c, s, hs, hc, -⟩ := render_eq_cons (hplain w (List.mem_cons_self ..)) level
      obtain ⟨s', hs'⟩ := renderElements_eq_cons ws hs
      rw [renderElements, List.length_append, List.length_cons, List.length_append] at hfuel
      have hrest := ih (by simp) hplain hreads fuel (by omega)
      have hskip : skip (newline level ++ (renderElements level (w :: ws) ++
          (newline outer ++ 0x5d :: rest)))
          = renderElements level (w :: ws) ++ (newline outer ++ 0x5d :: rest) := by
        rw [hs', List.cons_append]
        exact skip_newline hc level _
      rw [renderElements, List.append_assoc, List.cons_append, List.append_assoc, scanElements,
        hv level fuel _ (by omega)]
      simp only [Option.bind_eq_bind, Option.bind_some]
      rw [skip_cons (by decide)]
      dsimp only
      rw [if_neg (by decide), if_pos rfl, hskip, hrest]
      rfl

/-- A member is read up to what comes after its value. -/
theorem scanMembers_member {name : Str} {v : Value} (hname : ∀ c ∈ name, c.isValidChar)
    (hplain : Plain v) (hv : Reads v) {level fuel : Nat} (hlt : (render level v).length < fuel)
    (s : Str) :
    scanMembers (fuel + 1) (quoted name ++ 0x3a :: 0x20 :: (render level v ++ s))
      = match skip s with
        | [] => none
        | c :: rest =>
          if c = 0x7d then some ([(name, v)], rest)
          else if c = 0x2c then (scanMembers fuel (skip rest)).map fun r => ((name, v) :: r.1, r.2)
          else none := by
  obtain ⟨c, t, ht, hc, -⟩ := render_eq_cons hplain level
  have hskip : skip (0x20 :: (render level v ++ s)) = render level v ++ s := by
    rw [ht, List.cons_append]
    show skip (c :: (t ++ s)) = _
    exact skip_cons hc _
  rw [quoted, List.cons_append, List.append_assoc, List.singleton_append, scanMembers,
    scanString_quoted hname, if_neg (by simp)]
  simp only [Option.bind_eq_bind, Option.bind_some]
  rw [skip_cons (by decide)]
  dsimp only
  rw [if_neg (by simp), hskip, hv level fuel s hlt]
  simp only [Option.bind_some]
  cases skip s with
  | nil => rfl
  | cons c rest =>
    dsimp only
    split_ifs
    · rfl
    · cases scanMembers fuel (skip rest) with
      | none => rfl
      | some r => rfl
    · rfl

/-- The members of an object are, when the value of each one is. -/
theorem scanMembers_render {ms : List (Str × Value)} (hne : ms ≠ [])
    (hnames : ∀ m ∈ ms, ∀ c ∈ m.1, c.isValidChar) (hplain : ∀ m ∈ ms, Plain m.2)
    (hreads : ∀ m ∈ ms, Reads m.2) (level outer fuel : Nat) (rest : Str)
    (hfuel : (renderMembers level ms).length + 1 < fuel) :
    scanMembers fuel (renderMembers level ms ++ (newline outer ++ 0x7d :: rest))
      = some (ms, rest) := by
  have hclose := skip_newline (c := 0x7d) (by decide) outer rest
  induction ms generalizing fuel with
  | nil => exact absurd rfl hne
  | cons m ms ih =>
    obtain ⟨name, v⟩ := m
    obtain ⟨hname, hnames⟩ := List.forall_mem_cons.mp hnames
    obtain ⟨hm, hplain⟩ := List.forall_mem_cons.mp hplain
    obtain ⟨hv, hreads⟩ := List.forall_mem_cons.mp hreads
    cases fuel with
    | zero => exact absurd hfuel (Nat.not_lt_zero _)
    | succ fuel =>
    cases ms with
    | nil =>
      rw [renderMembers] at hfuel ⊢
      rw [List.length_append, List.length_cons, List.length_cons] at hfuel
      rw [List.append_assoc, List.cons_append, List.cons_append,
        scanMembers_member (v := v) hname hm hv (by omega), hclose]
      rfl
    | cons m' ms =>
      obtain ⟨s', hs'⟩ := renderMembers_eq_cons level m' ms
      rw [renderMembers, List.length_append, List.length_cons, List.length_cons, List.length_append,
        List.length_cons, List.length_append] at hfuel
      have hrest := ih (by simp) hnames hplain hreads fuel (by omega)
      have hskip : skip (newline level ++ (renderMembers level (m' :: ms) ++
          (newline outer ++ 0x7d :: rest)))
          = renderMembers level (m' :: ms) ++ (newline outer ++ 0x7d :: rest) := by
        rw [hs', List.cons_append]
        exact skip_newline (by decide) level _
      rw [renderMembers, List.append_assoc, List.cons_append, List.cons_append, List.append_assoc,
        List.cons_append, List.append_assoc, scanMembers_member (v := v) hname hm hv (by omega),
        skip_cons (by decide)]
      dsimp only
      rw [if_neg (by decide), if_pos rfl, hskip, hrest]
      rfl

/-- A value is read off the front of its text. -/
theorem scanOnce_render {v : Value} (hv : Plain v) : Reads v := by
  induction hv with
  | null =>
    intro level fuel rest hfuel
    obtain ⟨fuel, rfl⟩ := Nat.exists_eq_add_of_lt hfuel
    rfl
  | bool b =>
    intro level fuel rest hfuel
    obtain ⟨fuel, rfl⟩ := Nat.exists_eq_add_of_lt hfuel
    cases b with
    | false => rfl
    | true => rfl
  | @string s hs =>
    intro level fuel rest hfuel
    obtain ⟨fuel, rfl⟩ := Nat.exists_eq_add_of_lt hfuel
    rw [render, quoted, List.cons_append, List.append_assoc, List.singleton_append, scanOnce,
      if_pos rfl, scanString_quoted hs]
    rfl
  | @array vs hvs ih =>
    intro level fuel rest hfuel
    cases fuel with
    | zero => exact absurd hfuel (Nat.not_lt_zero _)
    | succ fuel =>
    cases vs with
    | nil => rfl
    | cons v vs =>
      rw [render] at hfuel ⊢
      simp only [List.length_cons, List.length_append] at hfuel
      obtain ⟨c, s, hs, hc, hclose⟩ := render_eq_cons (hvs v (List.mem_cons_self ..)) (level + 1)
      obtain ⟨s', hs'⟩ := renderElements_eq_cons vs hs
      have hskip : skip (newline (level + 1) ++ (renderElements (level + 1) (v :: vs) ++
          (newline level ++ 0x5d :: rest)))
          = renderElements (level + 1) (v :: vs) ++ (newline level ++ 0x5d :: rest) := by
        rw [hs', List.cons_append]
        exact skip_newline hc _ _
      have hhead : (renderElements (level + 1) (v :: vs) ++ (newline level ++ 0x5d :: rest)).head?
          ≠ some 0x5d := by
        rw [hs', List.cons_append, List.head?_cons]
        simpa using hclose
      rw [List.cons_append, List.append_assoc, List.append_assoc, List.append_assoc,
        List.singleton_append, scanOnce, if_neg (by decide), if_neg (by decide), if_pos rfl, hskip,
        if_neg hhead, scanElements_render (by simp) hvs ih _ _ _ _ (by omega)]
      rfl
  | @object ms hnames hms ih =>
    intro level fuel rest hfuel
    cases fuel with
    | zero => exact absurd hfuel (Nat.not_lt_zero _)
    | succ fuel =>
    cases ms with
    | nil => rfl
    | cons m ms =>
      rw [render] at hfuel ⊢
      simp only [List.length_cons, List.length_append] at hfuel
      obtain ⟨s', hs'⟩ := renderMembers_eq_cons (level + 1) m ms
      have hskip : skip (newline (level + 1) ++ (renderMembers (level + 1) (m :: ms) ++
          (newline level ++ 0x7d :: rest)))
          = renderMembers (level + 1) (m :: ms) ++ (newline level ++ 0x7d :: rest) := by
        rw [hs', List.cons_append]
        exact skip_newline (by decide) _ _
      have hhead : (renderMembers (level + 1) (m :: ms) ++ (newline level ++ 0x7d :: rest)).head?
          ≠ some 0x7d := by
        rw [hs', List.cons_append, List.head?_cons]
        decide
      rw [List.cons_append, List.append_assoc, List.append_assoc, List.append_assoc,
        List.singleton_append, scanOnce, if_neg (by decide), if_pos rfl, hskip, if_neg hhead,
        scanMembers_render (by simp) hnames hms ih _ _ _ _ (by omega)]
      rfl

/-- A character of a JSON text. -/
def IsPrintable (c : CodePoint) : Prop := c = 0xa ∨ (0x20 ≤ c ∧ c ≤ 0x7e)

instance (c : CodePoint) : Decidable (IsPrintable c) := inferInstanceAs (Decidable (_ ∨ _))

theorem isPrintable_of_mem_escape (x : CodePoint) : ∀ c ∈ escape x, IsPrintable c := by
  have hdigit : ∀ d, IsPrintable (hexDigit (d % 16)) := by
    have hall : ∀ d < 16, IsPrintable (hexDigit d) := by decide
    exact fun d => hall _ (Nat.mod_lt d (by decide))
  have hunit : ∀ n, ∀ c ∈ escapeUnit n, IsPrintable c := by
    intro n c hc
    simp only [escapeUnit, unitDigits, List.mem_cons, List.not_mem_nil, or_false] at hc
    rcases hc with rfl | rfl | rfl | rfl | rfl | rfl
    · decide
    · decide
    all_goals exact hdigit _
  rcases escape_cases x with ⟨heq, hx, -⟩ | ⟨y, heq, hy, -⟩ | ⟨-, heq⟩ | ⟨-, heq⟩
  · rw [heq, List.forall_mem_singleton]
    exact .inr hx
  · rw [heq, List.forall_mem_cons, List.forall_mem_singleton]
    exact ⟨by decide, .inr hy⟩
  · rw [heq]
    exact hunit _
  · rw [heq, List.forall_mem_append]
    exact ⟨hunit _, hunit _⟩

theorem isPrintable_of_mem_quoted (s : Str) : ∀ c ∈ quoted s, IsPrintable c := by
  have hquote : IsPrintable 0x22 := by decide
  intro c hc
  rcases List.mem_cons.mp hc with rfl | hc
  · exact hquote
  · rcases List.mem_append.mp hc with hc | hc
    · obtain ⟨x, -, hx⟩ := List.mem_flatMap.mp hc
      exact isPrintable_of_mem_escape x c hx
    · obtain rfl := List.mem_singleton.mp hc
      exact hquote

theorem isPrintable_of_mem_newline (level : Nat) : ∀ c ∈ newline level, IsPrintable c := by
  intro c hc
  rcases List.mem_cons.mp hc with rfl | hc
  · decide
  · rw [List.eq_of_mem_replicate hc]
    decide

theorem isPrintable_of_mem_renderElements {vs : List Value}
    (h : ∀ v ∈ vs, ∀ level, ∀ c ∈ render level v, IsPrintable c) (level : Nat) :
    ∀ c ∈ renderElements level vs, IsPrintable c := by
  have hcomma : IsPrintable 0x2c := by decide
  induction vs with
  | nil => simp [renderElements]
  | cons v vs ih =>
    obtain ⟨hv, h⟩ := List.forall_mem_cons.mp h
    cases vs with
    | nil =>
      rw [renderElements]
      exact hv level
    | cons w ws =>
      rw [renderElements, List.forall_mem_append, List.forall_mem_cons, List.forall_mem_append]
      exact ⟨hv level, hcomma, isPrintable_of_mem_newline level, ih h⟩

theorem isPrintable_of_mem_renderMembers {ms : List (Str × Value)}
    (h : ∀ m ∈ ms, ∀ level, ∀ c ∈ render level m.2, IsPrintable c) (level : Nat) :
    ∀ c ∈ renderMembers level ms, IsPrintable c := by
  have hchar : IsPrintable 0x20 ∧ IsPrintable 0x2c ∧ IsPrintable 0x3a := by decide
  obtain ⟨hspace, hcomma, hcolon⟩ := hchar
  induction ms with
  | nil => simp [renderMembers]
  | cons m ms ih =>
    obtain ⟨hm, h⟩ := List.forall_mem_cons.mp h
    cases ms with
    | nil =>
      rw [renderMembers, List.forall_mem_append, List.forall_mem_cons, List.forall_mem_cons]
      exact ⟨isPrintable_of_mem_quoted _, hcolon, hspace, hm level⟩
    | cons m' ms =>
      rw [renderMembers, List.forall_mem_append, List.forall_mem_cons, List.forall_mem_cons,
        List.forall_mem_append, List.forall_mem_cons, List.forall_mem_append]
      exact ⟨isPrintable_of_mem_quoted _, hcolon, hspace, hm level, hcomma,
        isPrintable_of_mem_newline level, ih h⟩

/-- The text of a value is in ASCII, with line feeds and no other control characters. -/
theorem isPrintable_of_mem_render {v : Value} (hv : Plain v) :
    ∀ level, ∀ c ∈ render level v, IsPrintable c := by
  have hchar : IsPrintable 0x5b ∧ IsPrintable 0x5d ∧ IsPrintable 0x7b ∧ IsPrintable 0x7d := by
    decide
  obtain ⟨hopenList, hcloseList, hopen, hclose⟩ := hchar
  induction hv with
  | null =>
    intro level
    rw [render]
    decide
  | bool b =>
    intro level
    cases b with
    | false =>
      rw [render]
      decide
    | true =>
      rw [render]
      decide
  | string hs =>
    intro level
    rw [render]
    exact isPrintable_of_mem_quoted _
  | @array vs hvs ih =>
    intro level
    cases vs with
    | nil =>
      rw [render]
      decide
    | cons v vs =>
      rw [render, List.forall_mem_cons, List.forall_mem_append, List.forall_mem_append,
        List.forall_mem_append]
      exact ⟨hopenList, ⟨⟨isPrintable_of_mem_newline _, isPrintable_of_mem_renderElements ih _⟩,
        isPrintable_of_mem_newline _⟩,
        by simpa using hcloseList⟩
  | @object ms hnames hms ih =>
    intro level
    cases ms with
    | nil =>
      rw [render]
      decide
    | cons m ms =>
      rw [render, List.forall_mem_cons, List.forall_mem_append, List.forall_mem_append,
        List.forall_mem_append]
      exact ⟨hopen, ⟨⟨isPrintable_of_mem_newline _, isPrintable_of_mem_renderMembers ih _⟩,
        isPrintable_of_mem_newline _⟩,
        by simpa using hclose⟩

/-- What was written reads back, from a line of its own too. -/
theorem loads_dumps {v : Value} (hv : Plain v) : loads (dumps v ++ [0xa]) = some v := by
  obtain ⟨c, s, hs, hc, -⟩ := render_eq_cons hv 0
  have hbom : (dumps v ++ [0xa]).head? ≠ some 0xfeff := by
    have hprintable := isPrintable_of_mem_render hv 0 c (hs ▸ List.mem_cons_self ..)
    unfold dumps
    rw [hs, List.cons_append, List.head?_cons]
    intro heq
    rw [Option.some.inj heq] at hprintable
    exact absurd hprintable (by decide)
  have hread := scanOnce_render hv 0 ((dumps v ++ [0xa]).length + 1) [0xa] (by
    rw [List.length_append]
    show (dumps v).length < _
    omega)
  have hskip : skip (dumps v ++ [0xa]) = render 0 v ++ [0xa] := by
    unfold dumps
    rw [hs, List.cons_append]
    exact skip_cons hc _
  unfold loads
  rw [if_neg hbom, hskip, hread]
  rfl

/-- So it does through a file. -/
theorem readText_dumps {v : Value} (hv : Plain v) :
    ∃ b, encodeUtf8 (dumps v ++ [0xa]) = some b ∧ (readText b).bind loads = some v := by
  have hprintable : ∀ c ∈ dumps v ++ [0xa], IsPrintable c :=
    List.forall_mem_append.mpr ⟨isPrintable_of_mem_render hv 0, by decide⟩
  have hreturn : (0xd : CodePoint) ∉ dumps v ++ [0xa] := fun h =>
    absurd (hprintable _ h) (by decide)
  have hvalid : ∀ c ∈ dumps v ++ [0xa], c.isValidChar := by
    intro c hc
    left
    rcases hprintable c hc with rfl | ⟨-, hle⟩
    · decide
    · have hle : c.toNat ≤ 0x7e := hle
      omega
  obtain ⟨b, hb⟩ := encodeUtf8_isSome hvalid
  refine ⟨b, hb, ?_⟩
  rw [readText_of_encodeUtf8 hreturn hb, Option.bind_some, loads_dumps hv]

end Python.Json
