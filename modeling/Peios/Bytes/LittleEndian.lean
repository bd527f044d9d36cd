import Mathlib.Data.Nat.Digits.Lemmas

/-!
# Integers as little-endian bytes

`leBytes n v` is the `n`-byte little-endian encoding of `v` (modulo `256 ^ n`), and `ofLeBytes b`
the number a byte string encodes.  On strings of `n` bytes and numbers below `256 ^ n` the two are
inverse (`ofLeBytes_leBytes`, `leBytes_ofLeBytes`).
-/

namespace ByteString

/-- The number that bytes encode, the least significant byte first. -/
def ofLeBytes (b : List UInt8) : Nat := Nat.ofDigits 256 (b.map UInt8.toNat)

/-- The `n` bytes of a number, the least significant byte first. -/
def leBytes : Nat → Nat → List UInt8
  | 0, _ => []
  | n + 1, v => UInt8.ofNat v :: leBytes n (v / 256)

@[simp] theorem length_leBytes (n v : Nat) : (leBytes n v).length = n := by
  induction n generalizing v with
  | zero => rfl
  | succ n ih => rw [leBytes, List.length_cons, ih]

@[simp] theorem ofLeBytes_nil : ofLeBytes [] = 0 := rfl

theorem ofLeBytes_cons (a : UInt8) (b : List UInt8) :
    ofLeBytes (a :: b) = a.toNat + 256 * ofLeBytes b := by
  rw [ofLeBytes, List.map_cons, Nat.ofDigits_cons]
  rfl

theorem ofLeBytes_lt (b : List UInt8) : ofLeBytes b < 256 ^ b.length := by
  have h := Nat.ofDigits_lt_base_pow_length (b := 256) (l := b.map UInt8.toNat) (by norm_num)
    (fun x hx => by
      obtain ⟨y, _, rfl⟩ := List.mem_map.mp hx
      exact y.toNat_lt)
  rwa [List.length_map] at h

theorem ofLeBytes_leBytes (n v : Nat) (hv : v < 256 ^ n) : ofLeBytes (leBytes n v) = v := by
  induction n generalizing v with
  | zero => rw [leBytes, ofLeBytes_nil]; omega
  | succ n ih =>
    rw [leBytes, ofLeBytes_cons, ih (v / 256) (by rw [pow_succ] at hv; omega),
      UInt8.toNat_ofNat']
    omega

theorem leBytes_ofLeBytes (b : List UInt8) : leBytes b.length (ofLeBytes b) = b := by
  induction b with
  | nil => rfl
  | cons a b ih =>
    have ha := a.toNat_lt
    rw [List.length_cons, leBytes, ofLeBytes_cons,
      show (a.toNat + 256 * ofLeBytes b) / 256 = ofLeBytes b by omega, ih]
    congr 1
    apply UInt8.toNat_inj.mp
    rw [UInt8.toNat_ofNat']
    omega

end ByteString
