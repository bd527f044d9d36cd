import Peios.Bytes.Pieces

/-!
# Padding to a fixed size

`padded s n l` is `l` with separators after it up to the size `n`.  Trimming them gives `l` back
exactly when `l` does not end with one (`trim_padded_eq_self`).
-/

namespace ByteString

variable {α : Type} [DecidableEq α] {s : α} {n : Nat} {l l' : List α}

/-- The list, with separators after it up to `n` elements. -/
def padded (s : α) (n : Nat) (l : List α) : List α := l ++ List.replicate (n - l.length) s

omit [DecidableEq α] in
theorem length_padded (h : l.length ≤ n) : (padded s n l).length = n := by
  unfold padded
  rw [List.length_append, List.length_replicate]
  omega

theorem trim_replicate (s : α) (n : Nat) : trim s (List.replicate n s) = [] := by
  apply List.rdropWhile_eq_nil_iff.mpr
  intro x hx
  exact decide_eq_true (List.eq_of_mem_replicate hx)

/-- A trimmed list is what was padded, trimmed. -/
theorem trim_padded (s : α) (n : Nat) (l : List α) : trim s (padded s n l) = trim s l :=
  trim_append_of_eq_nil l (trim_replicate s _)

/-- What is trimmed are separators. -/
theorem trim_append_replicate (s : α) (l : List α) :
    trim s l ++ List.replicate (l.length - (trim s l).length) s = l := by
  induction l using List.reverseRecOn with
  | nil => rfl
  | append_singleton l x ih =>
    have hle : (trim s l).length ≤ l.length := List.IsPrefix.length_le ( trim_prefix l)
    by_cases hx : x = s
    · subst hx
      have hcount : (l ++ [x]).length - (trim x l).length = l.length - (trim x l).length + 1 := by
        rw [List.length_append, List.length_singleton]
        omega
      rw [trim_concat, hcount, List.replicate_succ', ← List.append_assoc, ih]
    · have hkeep : trim s (l ++ [x]) = l ++ [x] :=
        List.rdropWhile_concat_neg _ _ _ (by simpa using hx)
      rw [hkeep, Nat.sub_self, List.replicate_zero, List.append_nil]

/-- Padding a trimmed list makes up for what was trimmed. -/
theorem padded_trim (h : l.length ≤ n) : padded s n (trim s l) = padded s n l := by
  have hle : (trim s l).length ≤ l.length := List.IsPrefix.length_le ( trim_prefix l)
  have hsplit : n - (trim s l).length
      = (l.length - (trim s l).length) + (n - l.length) := by
    omega
  unfold padded
  rw [hsplit, ← List.replicate_append_replicate, ← List.append_assoc, trim_append_replicate]

/-- **Lists are padded alike** exactly when they differ by separators at the end alone. -/
theorem padded_eq_iff (h : l.length ≤ n) (h' : l'.length ≤ n) :
    padded s n l = padded s n l' ↔ trim s l = trim s l' := by
  constructor
  · intro heq
    rw [← trim_padded s n l, heq, trim_padded]
  · intro heq
    rw [← padded_trim h, heq, padded_trim h']

theorem trim_eq_self : trim s l = l ↔ l.getLast? ≠ some s := by
  unfold trim
  rw [List.rdropWhile_eq_self_iff]
  rcases List.eq_nil_or_concat l with rfl | ⟨l, x, rfl⟩
  · simp
  · simp

/-- **A list is recovered** by trimming its padding exactly when it does not end with a separator.
-/
theorem trim_padded_eq_self : trim s (padded s n l) = l ↔ l.getLast? ≠ some s := by
  rw [trim_padded, trim_eq_self]

end ByteString
