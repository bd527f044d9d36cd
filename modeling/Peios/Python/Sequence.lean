import Mathlib.Data.List.Basic
import Mathlib.Tactic.Common

/-!
# Exceptions and sequences in Python

A function that may raise returns an `Except`.  `slice l i j` is `l[i:j]`, where an index below zero
counts from the end, and `find l a i` is `l.find(a, i)` of one element, which is `-1` when there is
none.  What both make of the elements from an index on is said by `slice_of_le`, `find_eq_add` and
`find_eq_neg_one`.
-/

namespace Python

section Exceptions

variable {ε α β : Type}

@[simp] theorem ok_bind (a : α) (f : α → Except ε β) : (Except.ok a >>= f) = f a := rfl

@[simp] theorem error_bind (e : ε) (f : α → Except ε β) :
    ((Except.error e : Except ε α) >>= f) = .error e := rfl

theorem pure_eq (a : α) : (pure a : Except ε α) = .ok a := rfl

theorem throw_eq (e : ε) : (throw e : Except ε α) = .error e := rfl

/-- A sequence returns when both halves do. -/
theorem bind_eq_ok {x : Except ε α} {f : α → Except ε β} {b : β} :
    (x >>= f) = .ok b ↔ ∃ a, x = .ok a ∧ f a = .ok b := by
  cases x with
  | error e => simp
  | ok a => simp

/-- A condition that is checked. -/
theorem ite_throw_eq_ok {p : Prop} [Decidable p] {e : ε} {x : Except ε α} {a : α} :
    (if p then .error e else x) = .ok a ↔ ¬ p ∧ x = .ok a := by
  split_ifs with hp
  · simp [hp]
  · simp [hp]

/-- What there is, or an exception. -/
def orRaise (o : Option α) (e : ε) : Except ε α :=
  match o with
  | some a => .ok a
  | none => .error e

@[simp] theorem orRaise_eq_ok {o : Option α} {e : ε} {a : α} :
    orRaise o e = .ok a ↔ o = some a := by
  cases o with
  | none => simp [orRaise]
  | some b => simp [orRaise]

/-- A loop that returns nothing returns when each round does. -/
theorem forM_eq_ok {f : α → Except ε Unit} {l : List α} :
    forM l f = .ok () ↔ ∀ a ∈ l, f a = .ok () := by
  induction l with
  | nil => simp [pure, Except.pure]
  | cons a l ih =>
    rw [List.forM_cons, bind_eq_ok, List.forall_mem_cons, ← ih]
    constructor
    · rintro ⟨_, ha, hl⟩
      exact ⟨ha, hl⟩
    · rintro ⟨ha, hl⟩
      exact ⟨(), ha, hl⟩

/-- A list is mapped when each element is. -/
theorem mapM_eq_ok {f : α → Except ε β} {l : List α} {r : List β} :
    l.mapM f = .ok r ↔ l.map f = r.map .ok := by
  induction l generalizing r with
  | nil => simp [pure, Except.pure, eq_comm]
  | cons a l ih =>
    rw [List.mapM_cons, List.map_cons]
    cases r with
    | nil => simp [bind_eq_ok, pure, Except.pure]
    | cons b r => simp [bind_eq_ok, pure, Except.pure, ih]

/-- A list is mapped if each element can be. -/
theorem exists_mapM_eq_ok {f : α → Except ε β} {l : List α} (h : ∀ a ∈ l, ∃ b, f a = .ok b) :
    ∃ r, l.mapM f = .ok r := by
  induction l with
  | nil => exact ⟨[], rfl⟩
  | cons a l ih =>
    obtain ⟨⟨b, hb⟩, hl⟩ := List.forall_mem_cons.mp h
    obtain ⟨r, hr⟩ := ih hl
    exact ⟨b :: r, by rw [List.mapM_cons, hb, ok_bind, hr, ok_bind, pure_eq]⟩

theorem mem_of_mapM_eq_ok {f : α → Except ε β} {l : List α} {r : List β} (h : l.mapM f = .ok r)
    {b : β} : b ∈ r ↔ ∃ a ∈ l, f a = .ok b := by
  have hmap : (Except.ok b : Except ε β) ∈ r.map .ok ↔ b ∈ r := by simp
  rw [← hmap, ← mapM_eq_ok.mp h, List.mem_map]

theorem exists_of_mapM_eq_ok {f : α → Except ε β} {l : List α} {r : List β} (h : l.mapM f = .ok r)
    {a : α} (ha : a ∈ l) : ∃ b, f a = .ok b := by
  have hmem : f a ∈ r.map .ok := mapM_eq_ok.mp h ▸ List.mem_map_of_mem ha
  obtain ⟨b, -, hb⟩ := List.mem_map.mp hmem
  exact ⟨b, hb.symm⟩

end Exceptions

variable {α : Type}

/-- The position that an index stands for in a sequence of length `len`. -/
def position (len : Nat) (i : Int) : Nat := if i < 0 then (len + i).toNat else min i.toNat len

/-- `l[i:j]`. -/
def slice (l : List α) (i j : Int) : List α :=
  (l.take (position l.length j)).drop (position l.length i)

theorem position_of_le {len n : Nat} (h : n ≤ len) : position len n = n := by
  unfold position
  rw [if_neg (by omega)]
  omega

/-- Between positions that are in range. -/
theorem slice_of_le {l : List α} {m n : Nat} (h : m ≤ l.length) :
    slice l m n = (l.drop m).take (n - m) := by
  have htake : l.take (position l.length n) = l.take n := by
    unfold position
    rw [if_neg (by omega)]
    rcases Nat.le_total n l.length with hle | hle
    · congr 1
      omega
    · rw [List.take_of_length_le hle, List.take_of_length_le (by omega)]
  unfold slice
  rw [htake, position_of_le h, List.drop_take]

variable [DecidableEq α]

/-- `l.split(a, 1)`, if it has two parts. -/
def splitOnce (l : List α) (a : α) : Option (List α × List α) :=
  match l.dropWhile (· ≠ a) with
  | [] => none
  | _ :: rest => some (l.takeWhile (· ≠ a), rest)

/-- `l.find(a, i)`. -/
def find (l : List α) (a : α) (i : Int) : Int :=
  match (l.drop (position l.length i)).idxOf? a with
  | some k => position l.length i + k
  | none => -1

/-- The first one from a position on. -/
theorem find_eq_add {l as bs : List α} {a : α} {m : Nat} (hm : m ≤ l.length)
    (h : l.drop m = as ++ a :: bs) (ha : a ∉ as) : find l a m = ((m + as.length : Nat) : Int) := by
  have hidx : (as ++ a :: bs).idxOf? a = some as.length := by
    clear h
    induction as with
    | nil => simp [List.idxOf?_cons]
    | cons b as ih =>
      obtain ⟨hb, ha⟩ := not_or.mp (List.mem_cons.not.mp ha)
      rw [List.cons_append, List.idxOf?_cons, ih ha]
      simp [Ne.symm hb]
  unfold find
  rw [position_of_le hm, h, hidx]
  simp

/-- There is none from a position on. -/
theorem find_eq_neg_one {l : List α} {a : α} {m : Nat} (hm : m ≤ l.length) (ha : a ∉ l.drop m) :
    find l a m = -1 := by
  unfold find
  rw [position_of_le hm, List.idxOf?_eq_none_iff.mpr ha]

end Python
