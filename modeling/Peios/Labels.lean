import Mathlib.Data.List.Nodup

/-!
# Lists with labels

Where the elements of a list have different labels, a label tells one from the others: keeping what
has it leaves one element (`filter_eq_singleton`), and looking for it finds that one
(`find?_eq_some_iff`).
-/

namespace Labels

variable {α κ : Type} [DecidableEq κ] {label : α → κ} {l : List α} {a : α} {k : κ}

/-- The label of an element keeps that element alone. -/
theorem filter_eq_singleton (hnodup : (l.map label).Nodup) (ha : a ∈ l) :
    l.filter (fun x => label x = label a) = [a] := by
  induction l with
  | nil => simp at ha
  | cons x l ih =>
    rw [List.map_cons, List.nodup_cons] at hnodup
    rcases List.mem_cons.mp ha with rfl | ha
    · have hnone : l.filter (fun x => label x = label a) = [] := by
        apply List.filter_eq_nil_iff.mpr
        intro x hx heq
        exact hnodup.1 (of_decide_eq_true heq ▸ List.mem_map_of_mem hx)
      rw [List.filter_cons_of_pos (by simp), hnone]
    · have hne : label x ≠ label a := by
        intro heq
        exact hnodup.1 (heq ▸ List.mem_map_of_mem ha)
      rw [List.filter_cons_of_neg (by simpa using hne), ih hnodup.2 ha]

/-- What is found by a label is what has it. -/
theorem find?_eq_some_iff (hnodup : (l.map label).Nodup) :
    l.find? (fun x => label x = k) = some a ↔ a ∈ l ∧ label a = k := by
  constructor
  · intro hfind
    have hlabel := List.find?_some hfind
    exact ⟨List.mem_of_find?_eq_some hfind, by simpa using hlabel⟩
  · rintro ⟨ha, rfl⟩
    rw [← List.head?_filter, filter_eq_singleton hnodup ha]
    rfl

/-- So it is of a part of what is found. -/
theorem map_find?_eq_some {β : Type} {f : α → β} {b : β} (hnodup : (l.map label).Nodup) :
    (l.find? fun x => label x = k).map f = some b ↔ ∃ a ∈ l, label a = k ∧ f a = b := by
  rw [Option.map_eq_some_iff]
  simp only [find?_eq_some_iff hnodup, and_assoc]

end Labels
