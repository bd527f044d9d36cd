import Mathlib.Data.List.Basic

/-!
# Indexing and iterating

A sequence that can be asked for its length and for the element at an index is iterated by asking
for one index after another, below the length.  `AgreesAt` says that an index and the iteration
agree.

Where the index is cut to a narrower one on the way, they agree exactly at the indices that are
narrow enough, and at those that are still out of range once they are cut (`agreesAt_cut_iff`).
-/

namespace Peios

variable {α β : Type}

/-- `Iterator::map_while`. -/
def mapWhile (f : α → Option β) : List α → List β
  | [] => []
  | a :: l =>
    match f a with
    | some b => b :: mapWhile f l
    | none => []

/-- Where nothing ends it early, `map_while` maps. -/
theorem map_some_mapWhile {f : α → Option β} {l : List α} (h : ∀ a ∈ l, (f a).isSome) :
    (mapWhile f l).map some = l.map f := by
  induction l with
  | nil => rfl
  | cons a l ih =>
    rw [List.forall_mem_cons] at h
    obtain ⟨b, hb⟩ := Option.isSome_iff_exists.mp h.1
    unfold mapWhile
    rw [hb, List.map_cons, List.map_cons, ih h.2, hb]

/-- What is iterated: the element at each index below the length, until there is none. -/
def iterate (len : Nat) (get : Nat → Option α) : List α := mapWhile get (List.range len)

/-- There is an element at the index exactly when it is below the length, and then it is the one
that is iterated at that position. -/
structure AgreesAt (len : Nat) (get : Nat → Option α) (iter : List α) (i : Nat) : Prop where
  isSome_iff : (get i).isSome ↔ i < len
  getElem? : ∀ a, get i = some a → iter[i]? = some a

section

variable {len i m : Nat} {get : Nat → Option α}

/-- A position of the iteration is the element at that index. -/
theorem getElem?_iterate (hget : ∀ j < len, (get j).isSome) (hi : i < len) :
    (iterate len get)[i]? = get i := by
  have hmap : (iterate len get).map some = (List.range len).map get :=
    map_some_mapWhile fun j hj => hget j (List.mem_range.mp hj)
  have hat : ((iterate len get).map some)[i]? = some (get i) := by
    rw [hmap, List.getElem?_map, List.getElem?_range hi, Option.map_some]
  rw [List.getElem?_map] at hat
  obtain ⟨a, ha, hsome⟩ := Option.map_eq_some_iff.mp hat
  rw [ha, hsome]

/-- **An index that is cut** agrees with the iteration exactly when nothing is cut off, or when what
is left is out of range too. -/
theorem agreesAt_cut_iff {raw : Nat → Option α} (hraw : ∀ j < m, (raw j).isSome ↔ j < len)
    (hlen : len < m) (i : Nat) :
    AgreesAt len (fun j => raw (j % m)) (iterate len fun j => raw (j % m)) i ↔
      i < m ∨ len ≤ i % m := by
  have hcut : ∀ j, (raw (j % m)).isSome ↔ j % m < len :=
    fun j => hraw _ (Nat.mod_lt j (by omega))
  by_cases hi : i < len
  · -- in range nothing is cut off
    have hfits : ∀ j < len, (raw (j % m)).isSome := by
      intro j hj
      rw [hcut, Nat.mod_eq_of_lt (by omega)]
      exact hj
    refine iff_of_true ⟨⟨fun _ => hi, fun _ => hfits i hi⟩, ?_⟩ (.inl (by omega))
    intro a ha
    rw [getElem?_iterate hfits hi]
    exact ha
  · constructor
    · intro h
      have hout : ¬ i % m < len := fun hlt => hi (h.isSome_iff.mp ((hcut i).mpr hlt))
      exact .inr (by omega)
    · intro h
      have hnone : raw (i % m) = none := by
        rw [← Option.not_isSome_iff_eq_none, hcut]
        rcases h with hlt | hle
        · rw [Nat.mod_eq_of_lt hlt]
          exact hi
        · omega
      refine ⟨?_, ?_⟩
      · simp [hnone, hi]
      · simp [hnone]

end

end Peios
