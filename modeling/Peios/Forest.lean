import Mathlib.Data.List.Nodup
import Mathlib.Data.List.Perm.Basic

/-!
# Forests

A `Forest ν κ` is a finite ordered forest whose nodes carry a label and a key.  `keys` lists the
keys in preorder and `postorder` in postorder; `Below k d` says that `d` lies under `k`.  When no
key occurs twice, postorder lists every key after all the keys under it (`pairwise_postorder`), so
what has been taken from the front of it is closed under `Below` (`prefix_closed`).
-/

/-- The nodes under a node: the first one with its label and key, the nodes under it, and the
rest. -/
inductive Forest (ν κ : Type) where
  | nil
  | cons (label : ν) (key : κ) (under rest : Forest ν κ)

namespace Forest

variable {ν κ : Type}

/-! ### Nodes and their order -/

/-- The labels and keys at the top. -/
def entries : Forest ν κ → List (ν × κ)
  | nil => []
  | cons label key _ rest => (label, key) :: rest.entries

/-- Every key, each before those under it. -/
def keys : Forest ν κ → List κ
  | nil => []
  | cons _ key under rest => key :: (under.keys ++ rest.keys)

/-- Every key, each after those under it. -/
def postorder : Forest ν κ → List κ
  | nil => []
  | cons _ key under rest => under.postorder ++ key :: rest.postorder

/-- Every label. -/
def labels : Forest ν κ → List ν
  | nil => []
  | cons label _ under rest => label :: (under.labels ++ rest.labels)

/-- How many keys there are. -/
def size : Forest ν κ → Nat
  | nil => 0
  | cons _ _ under rest => under.size + rest.size + 1

/-- The key `d` lies under the key `k`. -/
def Below : Forest ν κ → κ → κ → Prop
  | nil, _, _ => False
  | cons _ key under rest, k, d =>
    (k = key ∧ d ∈ under.keys) ∨ under.Below k d ∨ rest.Below k d

/-- No node has `n` or more nodes directly under it. -/
def Narrow (n : Nat) : Forest ν κ → Prop
  | nil => True
  | cons _ _ under rest => under.entries.length < n ∧ under.Narrow n ∧ rest.Narrow n

theorem length_keys (F : Forest ν κ) : F.keys.length = F.size := by
  induction F with
  | nil => rfl
  | cons label key under rest ihu ihr =>
    rw [keys, List.length_cons, List.length_append, ihu, ihr, size]

theorem length_entries_le (F : Forest ν κ) : F.entries.length ≤ F.size := by
  induction F with
  | nil => exact Nat.le_refl _
  | cons label key under rest _ ihr =>
    rw [entries, List.length_cons, size]
    omega

theorem postorder_perm (F : Forest ν κ) : F.postorder.Perm F.keys := by
  induction F with
  | nil => exact .refl _
  | cons label key under rest ihu ihr =>
    exact List.perm_middle.trans (.cons key (ihu.append ihr))

theorem mem_postorder {F : Forest ν κ} {k : κ} : k ∈ F.postorder ↔ k ∈ F.keys :=
  F.postorder_perm.mem_iff

theorem length_postorder (F : Forest ν κ) : F.postorder.length = F.size :=
  F.postorder_perm.length_eq.trans F.length_keys

theorem key_mem_of_entry {F : Forest ν κ} {e : ν × κ} (he : e ∈ F.entries) :
    e.2 ∈ F.keys := by
  induction F with
  | nil => simp [entries] at he
  | cons label key under rest _ ihr =>
    rcases List.mem_cons.mp he with rfl | he
    · exact List.mem_cons_self ..
    · exact List.mem_cons_of_mem _ (List.mem_append_right _ (ihr he))

/-- Both ends of `Below` are keys of the forest. -/
theorem Below.mem {F : Forest ν κ} {k d : κ} (h : F.Below k d) : k ∈ F.keys ∧ d ∈ F.keys := by
  induction F with
  | nil => exact h.elim
  | cons label key under rest ihu ihr =>
    simp only [keys, List.mem_cons, List.mem_append]
    rcases h with ⟨rfl, hd⟩ | h | h
    · exact ⟨.inl rfl, .inr (.inl hd)⟩
    · exact ⟨.inr (.inl (ihu h).1), .inr (.inl (ihu h).2)⟩
    · exact ⟨.inr (.inr (ihr h).1), .inr (.inr (ihr h).2)⟩

/-- No key lies under itself. -/
theorem not_below_self {F : Forest ν κ} (hnodup : F.keys.Nodup) (k : κ) : ¬ F.Below k k := by
  induction F with
  | nil => exact id
  | cons label key under rest ihu ihr =>
    rw [keys, List.nodup_cons, List.mem_append, not_or, List.nodup_append] at hnodup
    obtain ⟨⟨hku, _⟩, hu, hr, _⟩ := hnodup
    rintro (⟨rfl, h⟩ | h | h)
    · exact hku h
    · exact ihu hu h
    · exact ihr hr h

/-- In postorder no key comes before one under it. -/
theorem pairwise_postorder {F : Forest ν κ} (hnodup : F.keys.Nodup) :
    F.postorder.Pairwise fun a b => ¬ F.Below a b := by
  induction F with
  | nil => exact .nil
  | cons label key under rest ihu ihr =>
    rw [keys, List.nodup_cons, List.mem_append, not_or, List.nodup_append] at hnodup
    obtain ⟨⟨hku, hkr⟩, hu, hr, hdisj⟩ := hnodup
    have hne : ∀ a ∈ under.keys, a ∉ rest.keys := fun a ha ha' => hdisj a ha a ha' rfl
    rw [postorder, List.pairwise_append, List.pairwise_cons]
    refine ⟨?_, ⟨?_, ?_⟩, ?_⟩
    · refine (ihu hu).imp_of_mem fun {a b} ha _ hab h => ?_
      rw [mem_postorder] at ha
      rcases h with ⟨rfl, _⟩ | h | h
      · exact hku ha
      · exact hab h
      · exact hne _ ha h.mem.1
    · rintro b hb (⟨_, h⟩ | h | h)
      · exact hne _ h (mem_postorder.mp hb)
      · exact hku h.mem.1
      · exact hkr h.mem.1
    · refine (ihr hr).imp_of_mem fun {a b} ha _ hab h => ?_
      rw [mem_postorder] at ha
      rcases h with ⟨rfl, _⟩ | h | h
      · exact hkr ha
      · exact hne _ h.mem.1 ha
      · exact hab h
    · -- from under the first key to that key or the rest
      rintro a ha b hb h
      rw [mem_postorder] at ha
      have hb : b = key ∨ b ∈ rest.keys := by
        rw [← mem_postorder]
        exact List.mem_cons.mp hb
      have hbu : b ∉ under.keys := fun hbu => hb.elim (fun h => hku (h ▸ hbu)) (hne _ hbu)
      rcases h with ⟨_, h⟩ | h | h
      · exact hbu h
      · exact hbu h.mem.2
      · exact hne _ ha h.mem.1

/-- A key in a list of postorder's first keys has everything under it in that list. -/
theorem prefix_closed {F : Forest ν κ} (hnodup : F.keys.Nodup) {l l' : List κ}
    (hl : F.postorder = l ++ l') {k d : κ} (hk : k ∈ l) (h : F.Below k d) : d ∈ l := by
  have hpair := pairwise_postorder hnodup
  have hd : d ∈ F.postorder := mem_postorder.mpr h.mem.2
  rw [hl] at hpair hd
  rcases List.mem_append.mp hd with hd | hd
  · exact hd
  · exact absurd h ((List.pairwise_append.mp hpair).2.2 k hk d hd)

end Forest
