import Peios.Bytes.LittleEndian
import Peios.Error

/-!
# Byte slices

`Vec<u8>` and `&[u8]` are lists of bytes.  Indexing by a range panics when the range does not lie
in the slice, so it is an `Outcome`; `slice_of_le` and its two relatives are how a proof says that
an access is in range.
-/

namespace Peios

open ByteString

/-- `Vec<u8>` and `&[u8]`. -/
abbrev Bytes := List UInt8

/-- `b[lo..hi]`. -/
def slice (b : Bytes) (lo hi : Nat) : Outcome Bytes :=
  if lo ≤ hi ∧ hi ≤ b.length then pure ((b.take hi).drop lo) else throw .panic

/-- `b[..hi]`. -/
def sliceTo (b : Bytes) (hi : Nat) : Outcome Bytes := slice b 0 hi

/-- `b[lo..]`. -/
def sliceFrom (b : Bytes) (lo : Nat) : Outcome Bytes := slice b lo b.length

/-- `from_le_bytes(b[lo..lo + width].try_into().expect(..))`. -/
def readLe (b : Bytes) (lo width : Nat) : Outcome Nat := do
  return ofLeBytes (← slice b lo (lo + width))

/-- `slice.as_ptr()` and `slice.len() as u32` (or `as c_uint`): the entries the callee is told
of. -/
def entriesU32 {α : Type} (l : List α) : List α := l.take (l.length % 2 ^ 32)

theorem length_entriesU32 {α : Type} (l : List α) :
    (entriesU32 l).length = l.length % 2 ^ 32 := by
  unfold entriesU32
  rw [List.length_take]
  exact min_eq_left (Nat.mod_le _ _)

theorem slice_of_le {b : Bytes} {lo hi : Nat} (hlo : lo ≤ hi) (hhi : hi ≤ b.length) :
    slice b lo hi = .ok ((b.take hi).drop lo) := by
  rw [slice, if_pos ⟨hlo, hhi⟩]
  rfl

theorem sliceTo_of_le {b : Bytes} {hi : Nat} (hhi : hi ≤ b.length) :
    sliceTo b hi = .ok (b.take hi) := by
  rw [sliceTo, slice_of_le (Nat.zero_le _) hhi, List.drop_zero]

theorem sliceFrom_of_le {b : Bytes} {lo : Nat} (hlo : lo ≤ b.length) :
    sliceFrom b lo = .ok (b.drop lo) := by
  rw [sliceFrom, slice_of_le hlo le_rfl, List.take_length]

theorem readLe_of_le {b : Bytes} {lo width : Nat} (h : lo + width ≤ b.length) :
    readLe b lo width = .ok (ofLeBytes ((b.drop lo).take width)) := by
  rw [readLe, slice_of_le (Nat.le_add_right _ _) h, ok_bind, List.drop_take,
    Nat.add_sub_cancel_left]
  rfl

end Peios
