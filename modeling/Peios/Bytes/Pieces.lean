import Mathlib.Data.List.DropRight
import Mathlib.Data.List.Infix

/-!
# Pieces between separators

`pieces s l` are the non-empty stretches of `l` between occurrences of the separator `s`,
`terminate s ws` writes a list of pieces with a separator after each, and `trim s l` is `l` without
its trailing separators.  Cutting inverts writing on pieces that are non-empty and free of the
separator (`pieces_terminate_append`).  The other way round only trailing separators may be lost:
`trim_terminate_pieces` says that this is so exactly for the lists that, once trimmed, neither
begin with a separator nor hold two in a row.
-/

namespace ByteString

variable {α : Type} [DecidableEq α] {s : α}

/-- The non-empty stretches between separators. -/
def pieces (s : α) (l : List α) : List (List α) := (l.splitOn s).filter (¬ ·.isEmpty)

/-- Each piece followed by a separator. -/
def terminate (s : α) (ws : List (List α)) : List α := ws.flatMap (· ++ [s])

/-- A list without its trailing separators. -/
def trim (s : α) (l : List α) : List α := l.rdropWhile (· = s)

/-- A piece: not empty, and with no separator in it. -/
def IsPiece (s : α) (w : List α) : Prop := w ≠ [] ∧ s ∉ w

/-- No separator comes first, and no two come in a row. -/
def Separated (s : α) (l : List α) : Prop := l.head? ≠ some s ∧ ¬ [s, s] <:+: l

/-- No separator stands before another element. -/
def OnlyTrailing (s : α) (l : List α) : Prop :=
  ∀ i j : Nat, i < j → (∃ x, l[j]? = some x ∧ x ≠ s) → l[i]? ≠ some s

instance (l : List α) : Decidable (Separated s l) :=
  inferInstanceAs (Decidable (_ ∧ ¬ _))

/-! ### Induction on the first separator -/

/-- To prove something of every list, prove it of those without separators, and of those with one
from the list after the first separator. -/
theorem pieces_induction {P : List α → Prop} (hfree : ∀ w, s ∉ w → P w)
    (hsep : ∀ w l, s ∉ w → P l → P (w ++ s :: l)) (l : List α) : P l := by
  induction hn : l.length using Nat.strong_induction_on generalizing l with
  | _ n ih =>
    by_cases hs : s ∈ l
    · obtain ⟨w, l', rfl, hw⟩ := List.eq_append_cons_of_mem hs
      rw [List.length_append, List.length_cons] at hn
      exact hsep w l' hw (ih _ (by omega) l' rfl)
    · exact hfree l hs

/-! ### Cutting -/

theorem pieces_of_not_mem {w : List α} (hw : s ∉ w) :
    pieces s w = if w = [] then [] else [w] := by
  rw [pieces, List.splitOn_eq_singleton hw]
  by_cases h : w = [] <;> simp [h]

theorem pieces_append_cons {w : List α} (hw : s ∉ w) (l : List α) :
    pieces s (w ++ s :: l) = if w = [] then pieces s l else w :: pieces s l := by
  rw [pieces, List.splitOn_append_cons_self_of_not_mem hw]
  by_cases h : w = [] <;> simp [h, pieces]

@[simp] theorem pieces_nil : pieces s [] = [] := by
  rw [pieces_of_not_mem (List.not_mem_nil), if_pos rfl]

theorem pieces_cons_self (l : List α) : pieces s (s :: l) = pieces s l :=
  (pieces_append_cons (List.not_mem_nil) l).trans (if_pos rfl)

/-- What cutting yields are pieces. -/
theorem isPiece_of_mem_pieces (l : List α) : ∀ w ∈ pieces s l, IsPiece s w := by
  induction l using pieces_induction (s := s) with
  | hfree w hw =>
    rw [pieces_of_not_mem hw]
    split_ifs with h
    · simp
    · simpa using ⟨h, hw⟩
  | hsep w l hw ih =>
    rw [pieces_append_cons hw]
    split_ifs with h
    · exact ih
    · intro w' hw'
      rcases List.mem_cons.mp hw' with rfl | hw'
      · exact ⟨h, hw⟩
      · exact ih w' hw'

/-- Cutting reads pieces back, whatever follows them. -/
theorem pieces_terminate_append {ws : List (List α)} (hws : ∀ w ∈ ws, IsPiece s w) (l : List α) :
    pieces s (terminate s ws ++ l) = ws ++ pieces s l := by
  induction ws with
  | nil => rfl
  | cons w ws ih =>
    obtain ⟨hne, hw⟩ := hws w (List.mem_cons_self ..)
    have hcons : terminate s (w :: ws) ++ l = w ++ s :: (terminate s ws ++ l) := by
      simp [terminate]
    rw [hcons, pieces_append_cons hw, if_neg hne,
      ih fun w' hw' => hws w' (List.mem_cons_of_mem _ hw'), List.cons_append]

/-- The maximal stretches of a list without separators, in order: each begins the list or comes
after a separator, and ends the list or has a separator after it. -/
inductive Runs (s : α) : List α → List (List α) → Prop
  | nil : Runs s [] []
  | sep {l ws} : Runs s l ws → Runs s (s :: l) ws
  | last {w} : IsPiece s w → Runs s w [w]
  | cons {w l ws} : IsPiece s w → Runs s l ws → Runs s (w ++ s :: l) (w :: ws)

theorem runs_pieces (l : List α) : Runs s l (pieces s l) := by
  induction l using pieces_induction (s := s) with
  | hfree w hw =>
    rw [pieces_of_not_mem hw]
    split_ifs with h
    · rw [h]
      exact .nil
    · exact .last ⟨h, hw⟩
  | hsep w l hw ih =>
    rw [pieces_append_cons hw]
    split_ifs with h
    · rw [h]
      exact .sep ih
    · exact .cons ⟨h, hw⟩ ih

/-- **Cutting yields the maximal stretches without separators**, and a list has no others. -/
theorem runs_iff {l : List α} {ws : List (List α)} : Runs s l ws ↔ ws = pieces s l := by
  constructor
  · intro h
    induction h with
    | nil => exact pieces_nil.symm
    | sep _ ih => rw [pieces_cons_self, ih]
    | last hw => rw [pieces_of_not_mem hw.2, if_neg hw.1]
    | cons hw _ ih => rw [pieces_append_cons hw.2, if_neg hw.1, ih]
  · rintro rfl
    exact runs_pieces l

/-! ### Trimming -/

theorem trim_concat (l : List α) : trim s (l ++ [s]) = trim s l :=
  List.rdropWhile_concat_pos _ _ _ (by simp)

theorem trim_prefix (l : List α) : trim s l <+: l := List.rdropWhile_prefix _ _

/-- A list without separators has none to trim. -/
theorem trim_of_not_mem {w : List α} (hw : s ∉ w) : trim s w = w := by
  refine List.rdropWhile_eq_self_iff.mpr fun hne h => hw ?_
  rw [← of_decide_eq_true h]
  exact List.getLast_mem hne

theorem trim_append_of_ne_nil (w : List α) {l : List α} (hl : trim s l ≠ []) :
    trim s (w ++ l) = w ++ trim s l := by
  induction l using List.reverseRecOn with
  | nil => exact absurd rfl hl
  | append_singleton l x ih =>
    by_cases hx : x = s
    · subst hx
      rw [trim_concat] at hl ⊢
      rw [← List.append_assoc, trim_concat, ih hl]
    · have hkeep : ∀ l, trim s (l ++ [x]) = l ++ [x] := fun l =>
        List.rdropWhile_concat_neg _ _ _ (by simpa using hx)
      rw [← List.append_assoc, hkeep, hkeep, List.append_assoc]

theorem trim_append_of_eq_nil (w : List α) {l : List α} (hl : trim s l = []) :
    trim s (w ++ l) = trim s w := by
  induction l using List.reverseRecOn with
  | nil => rw [List.append_nil]
  | append_singleton l x ih =>
    have hx : x = s := by
      have := List.rdropWhile_eq_nil_iff.mp hl x (by simp)
      simpa using this
    subst hx
    rw [trim_concat] at hl
    rw [← List.append_assoc, trim_concat, ih hl]

/-- Trimming past a separator: it goes with what follows when that trims away, and stays
otherwise. -/
theorem trim_append_cons {w : List α} (hw : s ∉ w) (l : List α) :
    trim s (w ++ s :: l) = if trim s l = [] then w else w ++ s :: trim s l := by
  have hcons : w ++ s :: l = (w ++ [s]) ++ l := by simp
  split_ifs with hl
  · rw [hcons, trim_append_of_eq_nil _ hl, trim_concat, trim_of_not_mem hw]
  · rw [hcons, trim_append_of_ne_nil _ hl, List.append_assoc, List.singleton_append]

/-- Trimming leaves no separator exactly when none stands before another element. -/
theorem not_mem_trim {l : List α} : s ∉ trim s l ↔ OnlyTrailing s l := by
  unfold OnlyTrailing
  induction l using List.reverseRecOn with
  | nil => simp [trim]
  | append_singleton l x ih =>
    by_cases hx : x = s
    · -- a separator at the end changes neither side
      subst hx
      rw [trim_concat, ih]
      apply forall_congr'; intro i
      apply forall_congr'; intro j
      apply forall_congr'; intro hij
      rcases lt_trichotomy j l.length with hj | hj | hj
      · rw [List.getElem?_append_left hj, List.getElem?_append_left (hij.trans hj)]
      · simp [hj]
      · have hend : (l ++ [x])[j]? = none := by
          rw [List.getElem?_append_right hj.le, List.getElem?_eq_none]
          simp
          omega
        rw [hend, List.getElem?_eq_none hj.le]
        simp
    · have hkeep : trim s (l ++ [x]) = l ++ [x] :=
        List.rdropWhile_concat_neg _ _ _ (by simpa using hx)
      rw [hkeep]
      constructor
      · intro h i j _ _ hi
        exact h (List.mem_of_getElem? hi)
      · intro h hmem
        obtain ⟨i, hi⟩ := List.mem_iff_getElem?.mp hmem
        have hlt : i < l.length := by
          by_contra hge
          rw [List.getElem?_append_right (by omega)] at hi
          rcases hn : i - l.length with _ | n
          · rw [hn] at hi
            exact hx (Option.some.inj hi)
          · simp [hn] at hi
        exact h i l.length hlt ⟨x, by simp, hx⟩ hi

theorem pieces_eq_nil {l : List α} : pieces s l = [] ↔ trim s l = [] := by
  induction l using pieces_induction (s := s) with
  | hfree w hw =>
    rw [pieces_of_not_mem hw, trim_of_not_mem hw]
    by_cases h : w = [] <;> simp [h]
  | hsep w l hw ih =>
    rw [pieces_append_cons hw, trim_append_cons hw]
    by_cases h : w = []
    · subst h
      by_cases hl : trim s l = [] <;> simp [ih, hl]
    · by_cases hl : trim s l = [] <;> simp [h, hl]

/-! ### What writing the pieces back keeps -/

omit [DecidableEq α] in
theorem separated_of_not_mem {w : List α} (hw : s ∉ w) : Separated s w :=
  ⟨fun h => hw (List.mem_of_mem_head? h), fun h => hw (h.subset (by simp))⟩

omit [DecidableEq α] in
theorem doubled_infix_append {w : List α} (hw : s ∉ w) (l : List α) :
    [s, s] <:+: w ++ l ↔ [s, s] <:+: l := by
  induction w with
  | nil => rfl
  | cons x w ih =>
    rw [List.mem_cons, not_or] at hw
    rw [List.cons_append, List.infix_cons_iff, ih hw.2]
    refine or_iff_right fun h => hw.1 ?_
    exact (List.cons_prefix_cons.mp h).1

omit [DecidableEq α] in
/-- After a piece and its separator, what follows decides. -/
theorem separated_append_cons {w : List α} (hw : IsPiece s w) (l : List α) :
    Separated s (w ++ s :: l) ↔ Separated s l := by
  have hhead : (w ++ s :: l).head? ≠ some s := by
    rw [List.head?_append_of_ne_nil _ hw.1]
    exact fun h => hw.2 (List.mem_of_mem_head? h)
  have hfirst : [s, s] <+: s :: l ↔ l.head? = some s := by
    cases l <;> simp [eq_comm]
  rw [Separated, Separated, doubled_infix_append hw.2, List.infix_cons_iff, hfirst, not_or]
  exact and_iff_right hhead

theorem head?_terminate_pieces (l : List α) : (terminate s (pieces s l)).head? ≠ some s := by
  rcases hp : pieces s l with _ | ⟨w, ws⟩
  · simp [terminate]
  · obtain ⟨hne, hw⟩ := isPiece_of_mem_pieces l w (hp ▸ List.mem_cons_self ..)
    intro h
    rw [terminate, List.flatMap_cons, List.append_assoc, List.head?_append_of_ne_nil _ hne] at h
    exact hw (List.mem_of_mem_head? h)

/-- **Writing the pieces of a list back loses only trailing separators** exactly when the trimmed
list neither begins with a separator nor holds two in a row. -/
theorem trim_terminate_pieces (l : List α) :
    trim s (terminate s (pieces s l)) = trim s l ↔ Separated s (trim s l) := by
  induction l using pieces_induction (s := s) with
  | hfree w hw =>
    refine iff_of_true ?_ (by rw [trim_of_not_mem hw]; exact separated_of_not_mem hw)
    rw [pieces_of_not_mem hw]
    split_ifs with h
    · rw [h]
      rfl
    · rw [terminate, List.flatMap_singleton, trim_concat]
  | hsep w l hw ih =>
    rw [trim_append_cons hw, pieces_append_cons hw]
    by_cases hl : trim s l = []
    · -- nothing but separators follows the first one
      rw [if_pos hl, pieces_eq_nil.mpr hl]
      refine iff_of_true ?_ (separated_of_not_mem hw)
      split_ifs with h
      · rw [h]
        rfl
      · rw [terminate, List.flatMap_singleton, trim_concat, trim_of_not_mem hw]
    rw [if_neg hl]
    split_ifs with h
    · -- the list begins with a separator, and what is written back does not
      subst h
      refine iff_of_false (fun heq => head?_terminate_pieces (s := s) l ?_) (fun hsep => hsep.1 rfl)
      obtain ⟨t, ht⟩ := trim_prefix (s := s) (terminate s (pieces s l))
      rw [← ht, heq]
      rfl
    · have hcons : terminate s (w :: pieces s l) = w ++ s :: terminate s (pieces s l) := by
        simp [terminate]
      have hne : trim s (terminate s (pieces s l)) ≠ [] := by
        have hkeep := pieces_terminate_append (isPiece_of_mem_pieces (s := s) l) []
        rw [List.append_nil, pieces_nil, List.append_nil] at hkeep
        rw [Ne, ← pieces_eq_nil, hkeep, pieces_eq_nil]
        exact hl
      rw [hcons, trim_append_cons hw, if_neg hne, separated_append_cons ⟨h, hw⟩, ← ih,
        List.append_cancel_left_eq, List.cons_inj_right]

end ByteString
