import Peios.Msgpack.Reader

/-!
# What a failed read leaves

A read of libpeios that fails leaves the cursor where it is, and one that succeeds moves it past the
value.  A method of `Reader` that fails does the same, unless it fails for a check of its own: the
value is then behind the cursor, and an error is returned for it.  `untouched_iff` says that no
other failure moves the cursor.
-/

namespace Peios.Msgpack

open Interaction Prog ByteString

/-! ### What libpeios does -/

/-- A position in a buffer. -/
structure Cursor where
  buf : Bytes
  pos : Nat
  pos_le : pos ≤ buf.length

namespace Cursor

variable (cur : Cursor)

/-- The bytes that are left. -/
def rest : Bytes := cur.buf.drop cur.pos

/-- How many there are. -/
def remaining : Nat := cur.buf.length - cur.pos

/-- How many bytes a value can take. -/
abbrev Size := { n : Nat // 0 < n ∧ n ≤ cur.remaining }

variable {cur}

/-- The position past a value. -/
def past (n : cur.Size) : Cursor where
  buf := cur.buf
  pos := cur.pos + n
  pos_le := by
    have hle := n.2.2
    have hpos := cur.pos_le
    unfold remaining at hle
    omega

theorem remaining_past (n : cur.Size) : (past n).remaining < cur.remaining := by
  have hn := n.2
  unfold remaining past at *
  dsimp only
  omega

end Cursor

/-- libpeios' reads: what a read gives at a cursor, with the size of the value. -/
structure MpLib where
  read : (c : ReadCall) → (cur : Cursor) → Except Errno (c.Value × cur.Size)

namespace MpLib

variable (lib : MpLib)

/-- What libpeios answers. -/
def reader : Handler ReaderCall ReaderReply Cursor
  | .init buf, _ => ((), { buf, pos := 0, pos_le := Nat.zero_le _ })
  | .remaining, cur => (cur.remaining, cur)
  | .read c, cur =>
    match lib.read c cur with
    | .error e => (.error e, cur)
    | .ok (v, n) => (.ok v, Cursor.past n)

end MpLib

/-! ### Methods -/

/-- What the method for a read returns. -/
abbrev ReadCall.Result : ReadCall → Type
  | str => String
  | bin => Bytes
  | ext => Int8 × Bytes
  | nil => Unit
  | bool => Bool
  | int => Int64
  | uint => UInt64
  | float => UInt64
  | array => Nat
  | map => Nat
  | skip => Unit

/-- The method for a read. -/
def ReadCall.method : (c : ReadCall) → ReaderProg c.Result
  | nil => Reader.readNil
  | bool => Reader.readBool
  | int => Reader.readInt
  | uint => Reader.readUint
  | float => Reader.readFloat
  | str => Reader.readStr
  | bin => Reader.readBin
  | array => Reader.readArray
  | map => Reader.readMap
  | ext => Reader.readExt
  | skip => Reader.skip

/-- What a method makes of a value that has been read. -/
def ReadCall.check : (c : ReadCall) → c.Value → Outcome c.Result
  | str, v => Reader.nonNull v >>= Reader.utf8Of
  | bin, v => Reader.nonNull v
  | ext, v => do return (v.1, ← Reader.nonNull v.2)
  | nil, v => pure v
  | bool, v => pure v
  | int, v => pure v
  | uint, v => pure v
  | float, v => pure v
  | array, v => pure v
  | map, v => pure v
  | skip, v => pure v

/-- A value that its method accepts: bytes that are there, and for a string UTF-8. -/
def ReadCall.Accepts : (c : ReadCall) → c.Value → Prop
  | str, v => ∃ bytes, v = some bytes ∧ IsUtf8 bytes
  | bin, v => v ≠ none
  | ext, v => v.2 ≠ none
  | _, _ => True

theorem check_eq_ok_iff (c : ReadCall) (v : c.Value) :
    (∃ r, c.check v = .ok r) ↔ c.Accepts v := by
  cases c with
  | str =>
    rcases v with _ | bytes
    · exact iff_of_false (fun ⟨r, h⟩ => nomatch h) (fun ⟨b, h, _⟩ => nomatch h)
    · show (∃ r, Reader.utf8Of bytes = .ok r) ↔ ∃ b, some bytes = some b ∧ IsUtf8 b
      unfold Reader.utf8Of
      rcases hs : fromUtf8 bytes with _ | s
      · have hnot := fromUtf8_eq_none.mp hs
        refine iff_of_false (fun ⟨r, h⟩ => nomatch h) ?_
        rintro ⟨b, h, hb⟩
        obtain rfl := Option.some.inj h
        exact hnot hb
      · exact iff_of_true ⟨s, rfl⟩ ⟨bytes, rfl, s, fromUtf8_eq_some.mp hs⟩
  | bin =>
    rcases v with _ | bytes
    · exact iff_of_false (fun ⟨r, h⟩ => nomatch h) fun h => h rfl
    · exact iff_of_true ⟨bytes, rfl⟩ nofun
  | ext =>
    rcases v with ⟨ty, _ | bytes⟩
    · exact iff_of_false (fun ⟨r, h⟩ => nomatch h) fun h => h rfl
    · exact iff_of_true ⟨(ty, bytes), rfl⟩ nofun
  | _ => exact iff_of_true ⟨v, rfl⟩ trivial

variable {lib : MpLib} {c : ReadCall} {cur : Cursor}

/-- A read that libpeios refuses. -/
theorem exec_read_error {e : Errno} (h : lib.read c cur = .error e) :
    exec lib.reader (Reader.read c) cur = (.error (.errno e), cur) := by
  have hcall : exec lib.reader (readerCall (.read c)) cur = (.ok (.error e), cur) := by
    show (Except.ok (lib.reader (.read c) cur).1, (lib.reader (.read c) cur).2) = _
    unfold MpLib.reader
    dsimp only
    rw [h]
  unfold Reader.read
  rw [exec_bind_ok hcall]
  rfl

/-- One that it makes. -/
theorem exec_read_ok {v : c.Value} {n : cur.Size} (h : lib.read c cur = .ok (v, n)) :
    exec lib.reader (Reader.read c) cur = (.ok v, Cursor.past n) := by
  have hcall : exec lib.reader (readerCall (.read c)) cur = (.ok (.ok v), Cursor.past n) := by
    show (Except.ok (lib.reader (.read c) cur).1, (lib.reader (.read c) cur).2) = _
    unfold MpLib.reader
    dsimp only
    rw [h]
  unfold Reader.read
  rw [exec_bind_ok hcall]
  rfl

/-- Two checks, one after the other, are one check. -/
theorem mk_bind_mk {α β : Type} (x : Outcome α) (f : α → Outcome β) :
    (ExceptT.mk (pure x) >>= fun a => ExceptT.mk (pure (f a)) : ReaderProg β)
      = ExceptT.mk (pure (x >>= f)) := by
  rcases x with e | a
  · rfl
  · rfl

/-- Each method is its read and its check. -/
theorem method_eq (c : ReadCall) :
    c.method = Reader.read c >>= fun v => ExceptT.mk (pure (c.check v)) := by
  cases c with
  | str =>
    show Reader.readStr = _
    unfold Reader.readStr
    simp only [mk_bind_mk]
    rfl
  | bin => rfl
  | ext =>
    show Reader.readExt = _
    unfold Reader.readExt
    congr 1
    funext v
    exact mk_bind_mk (Reader.nonNull v.2) fun bytes => pure (v.1, bytes)
  | nil => exact (bind_pure _).symm
  | bool => exact (bind_pure _).symm
  | int => exact (bind_pure _).symm
  | uint => exact (bind_pure _).symm
  | float => exact (bind_pure _).symm
  | array => exact (bind_pure _).symm
  | map => exact (bind_pure _).symm
  | skip => exact (bind_pure _).symm

theorem exec_method_error {e : Errno} (h : lib.read c cur = .error e) :
    exec lib.reader c.method cur = (.error (.errno e), cur) := by
  rw [method_eq, exec_bind_error (exec_read_error h)]

/-- The cursor is past the value when it is checked. -/
theorem exec_method_ok {v : c.Value} {n : cur.Size} (h : lib.read c cur = .ok (v, n)) :
    exec lib.reader c.method cur = (c.check v, Cursor.past n) := by
  rw [method_eq, exec_bind_ok (exec_read_ok h)]
  rfl

/-! ### The result -/

/-- If the method fails, whatever is done later is as if it had not been called. -/
def Untouched (lib : MpLib) (c : ReadCall) (cur : Cursor) : Prop :=
  ∀ f, (exec lib.reader c.method cur).1 = .error f →
    ∀ (α : Type) (later : ReaderProg α),
      exec lib.reader later (exec lib.reader c.method cur).2 = exec lib.reader later cur

/-- A read that rejects nothing of what libpeios reads has not moved the cursor when it fails. -/
theorem untouched_of_accepts (haccepts : ∀ v n, lib.read c cur = .ok (v, n) → c.Accepts v) :
    Untouched lib c cur := by
  intro f hfails α later
  rcases hread : lib.read c cur with e | ⟨v, n⟩
  · rw [exec_method_error hread]
  · obtain ⟨r, hcheck⟩ := (check_eq_ok_iff c v).mpr (haccepts v n hread)
    rw [exec_method_ok hread, hcheck] at hfails
    cases hfails

/-- **A failed read leaves the cursor where it was** exactly when libpeios does not read a value
that the method then rejects. -/
theorem untouched_iff (lib : MpLib) (c : ReadCall) (cur : Cursor) :
    Untouched lib c cur ↔ ∀ v n, lib.read c cur = .ok (v, n) → c.Accepts v := by
  constructor
  · intro huntouched v n hread
    have hexec := exec_method_ok hread
    by_contra hrejects
    rcases hcheck : c.check v with f | r
    · -- the bytes of the value are missing from what remains
      have hlater := huntouched f (by rw [hexec, hcheck]) Nat Reader.remaining
      rw [hexec] at hlater
      have hremaining : (Cursor.past n).remaining = cur.remaining :=
        Except.ok.inj (Prod.mk.inj hlater).1
      have hlt := Cursor.remaining_past n
      omega
    · exact hrejects ((check_eq_ok_iff c v).mp ⟨r, hcheck⟩)
  · exact untouched_of_accepts

/-! ### Short strings -/

/-- The size of a string of at most 31 bytes, with its lead byte, if there is one next. -/
def shortStr? (cur : Cursor) : Option cur.Size :=
  match cur.rest with
  | [] => none
  | lead :: _ =>
    if h : (0xa0 ≤ lead ∧ lead ≤ 0xbf) ∧ 1 + (lead - 0xa0).toNat ≤ cur.remaining then
      some ⟨1 + (lead - 0xa0).toNat, Nat.add_pos_left (by decide) _, h.2⟩
    else none

/-- libpeios, where nothing but such strings comes up. -/
def shortStrings : MpLib where
  read
    | .str, cur =>
      match shortStr? cur with
      | some n => .ok (some ((cur.rest.take n).drop 1), n)
      | none => .error EINVAL
    | .skip, cur =>
      match shortStr? cur with
      | some n => .ok ((), n)
      | none => .error EINVAL
    | _, _ => .error EINVAL

/-- A string of one byte that is not UTF-8. -/
def notUtf8 : Cursor := { buf := [0xa1, 0xff], pos := 0, pos_le := by decide }

/-- It is read and then rejected, and the cursor is left behind it. -/
theorem not_untouched_notUtf8 :
    (exec shortStrings.reader Reader.readStr notUtf8).1 = .error (.errno EINVAL) ∧
    (exec shortStrings.reader Reader.readStr notUtf8).2.pos = 2 ∧
    ¬ Untouched shortStrings .str notUtf8 := by
  refine ⟨by decide +kernel, by decide +kernel, ?_⟩
  intro h
  have hlater := h (.errno EINVAL) (by decide +kernel) Nat Reader.remaining
  exact absurd (congrArg Prod.fst hlater) (by decide +kernel)

end Peios.Msgpack
