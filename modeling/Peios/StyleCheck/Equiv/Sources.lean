import Peios.StyleCheck.Check

/-!
# The sources of a repository

`sources` lists a file if and only if it `IsSource`, each once and in the order of their paths
(`sources_exact`).  So the order in which directories are listed does not matter
(`Lists.unique`).
-/

namespace StyleCheck

open Python FileTree

variable {root : List Str} {t t' : FileTree Component} {p q : List Component}

/-! ### One file -/

/-- The last two names of the directory that the file is in. -/
def InUapi (root : List Str) (p : List Component) : Prop :=
  [lit "internal", lit "uapi"] <:+ parts root p.dropLast

/-- What is found: no directory, and not in one that is left out. -/
structure IsFound (t : FileTree Component) (p : List Component) : Prop where
  node : ∃ n, t.node? p = some n ∧ n.isDirectory = false
  visible : t.Visible p
  kept : ∀ name ∈ p.dropLast, name.1 ∉ EXCLUDED

/-- What is maintained. -/
structure IsSource (root : List Str) (t : FileTree Component) (p : List Component) : Prop
    extends IsFound t p where
  notLink : isLink (t.node? p) = false
  notUapi : ¬ InUapi root p

/-- The two elements before the last one. -/
theorem slice_eq_pair {α : Type} (l : List α) (a b c : α) :
    slice (l ++ [c]) (-3) (-1) = [a, b] ↔ [a, b] <:+ l := by
  have hend : position (l ++ [c]).length (-1) = l.length := by simp [position]
  have hstart : position (l ++ [c]).length (-3) = l.length - 2 := by
    simp [position]
    omega
  unfold slice
  rw [hend, hstart, List.take_left]
  constructor
  · intro h
    rw [← h]
    exact List.drop_suffix _ _
  · rintro ⟨r, rfl⟩
    simp

theorem slice_parts (hp : p ≠ []) :
    slice (parts root p) (-3) (-1) = [lit "internal", lit "uapi"] ↔ InUapi root p := by
  obtain ⟨q, k, rfl⟩ := (List.eq_nil_or_concat p).resolve_left hp
  have happend : parts root (q.concat k) = parts root q ++ [k.1] := by simp [parts]
  rw [happend, slice_eq_pair, InUapi]
  simp

/-- What is asked of a file that is found. -/
def owns (root : List Str) (t : FileTree Component) (p : List Component) : Bool :=
  ! isLink (t.node? p) && slice (parts root p) (-3) (-1) ≠ [lit "internal", lit "uapi"]

/-- It can be told when the file can be named. -/
theorem isOwned_eq :
    isOwned root t p = if t.Reachable p then .ok (owns root t p) else .error .access := by
  unfold isOwned isSymlink owns
  split_ifs
  · cases hlink : isLink (t.node? p) with
    | true => rfl
    | false => rfl
  · rfl

theorem mem_found_iff : p ∈ t.found isKept ↔ IsFound t p := by
  have hkept : (∀ k ∈ p.dropLast, isKept k = true) ↔ ∀ name ∈ p.dropLast, name.1 ∉ EXCLUDED := by
    simp [isKept]
  rw [mem_found, hkept]
  exact ⟨fun h => ⟨h.1, h.2.1, h.2.2⟩, fun h => ⟨h.node, h.visible, h.kept⟩⟩

theorem IsFound.ne_nil (h : IsFound t p) : p ≠ [] := by
  rintro rfl
  obtain ⟨n, hn, hdir⟩ := h.node
  obtain ⟨a, ha⟩ := t.root
  have hroot : n = .directory a := Option.some.inj (hn.symm.trans ha)
  rw [hroot] at hdir
  cases hdir

theorem isSource_iff : IsSource root t p ↔ IsFound t p ∧ owns root t p = true := by
  have howns : p ≠ [] → (owns root t p = true ↔ isLink (t.node? p) = false ∧ ¬ InUapi root p) := by
    intro hp
    unfold owns
    simp only [Bool.and_eq_true, Bool.not_eq_true', decide_eq_true_eq, ne_eq, slice_parts hp]
  constructor
  · intro h
    exact ⟨h.toIsFound, (howns h.ne_nil).mpr ⟨h.notLink, h.notUapi⟩⟩
  · rintro ⟨hfound, h⟩
    obtain ⟨hlink, huapi⟩ := (howns hfound.ne_nil).mp h
    exact ⟨hfound, hlink, huapi⟩

/-! ### All of them -/

/-- A file is appended to those that have been found. -/
abbrev appendOwned (root : List Str) (t : FileTree Component) (found : List (List Component))
    (path : List Component) : Except OsError (List (List Component)) := do
  if ← isOwned root t path then return found ++ [path] else return found

theorem appendOwned_eq (found : List (List Component)) : appendOwned root t found p =
    if t.Reachable p then .ok (found ++ [p].filter (owns root t)) else .error .access := by
  unfold appendOwned
  rw [isOwned_eq]
  split_ifs
  · cases howns : owns root t p with
    | true => simp [howns, bind, Except.bind, pure, Except.pure]
    | false => simp [howns, bind, Except.bind, pure, Except.pure]
  · rfl

theorem foldlM_appendOwned (l found : List (List Component)) :
    l.foldlM (appendOwned root t) found =
      if ∀ p ∈ l, t.Reachable p then .ok (found ++ l.filter (owns root t))
      else .error .access := by
  induction l generalizing found with
  | nil => simp [pure, Except.pure]
  | cons p l ih =>
    rw [List.foldlM_cons, appendOwned_eq]
    by_cases hp : t.Reachable p
    · rw [if_pos hp]
      show l.foldlM (appendOwned root t) _ = _
      rw [ih, List.append_assoc, ← List.filter_append, List.singleton_append]
      simp [hp]
    · rw [if_neg hp, if_neg fun h => hp (h p (List.mem_cons_self ..))]
      rfl

theorem sources_eq : sources root t = if ∀ p ∈ t.found isKept, t.Reachable p then
    .ok (((t.found isKept).filter (owns root t)).mergeSort pathLe) else .error .access := by
  have hfold : (t.found isKept).foldlM (appendOwned root t) [] = _ := foldlM_appendOwned _ []
  unfold sources
  show (do
    let found ← (t.found isKept).foldlM (appendOwned root t) []
    return found.mergeSort pathLe) = _
  rw [hfold]
  split_ifs
  · rfl
  · rfl

theorem pathLe_trans (p q r : List Component) (hpq : pathLe p q = true) (hqr : pathLe q r = true) :
    pathLe p r = true := by
  unfold pathLe at *
  rw [decide_eq_true_eq] at *
  exact List.le_trans hpq hqr

theorem pathLe_total (p q : List Component) : (pathLe p q || pathLe q p) = true := by
  unfold pathLe
  rw [Bool.or_eq_true, decide_eq_true_eq, decide_eq_true_eq]
  exact List.le_total _ _

theorem pathLe_antisymm (hpq : pathLe p q = true) (hqp : pathLe q p = true) : p = q := by
  unfold pathLe at *
  rw [decide_eq_true_eq] at *
  exact List.map_injective_iff.mpr Subtype.val_injective (List.le_antisymm hpq hqp)

/-- The list of the sources: each of them once, in order. -/
structure Lists (root : List Str) (t : FileTree Component) (paths : List (List Component)) :
    Prop where
  sorted : paths.Pairwise fun p q => p.map Subtype.val < q.map Subtype.val
  mem_iff : ∀ p, p ∈ paths ↔ IsSource root t p

theorem lists_mergeSort :
    Lists root t (((t.found isKept).filter (owns root t)).mergeSort pathLe) := by
  have hperm := List.mergeSort_perm ((t.found isKept).filter (owns root t)) pathLe
  constructor
  · have hsorted := List.pairwise_mergeSort pathLe_trans pathLe_total
      ((t.found isKept).filter (owns root t))
    have hnodup := hperm.nodup_iff.mpr (nodup_found.filter (owns root t))
    refine (hsorted.and hnodup).imp fun {p q} h => ?_
    by_contra hlt
    exact h.2 (pathLe_antisymm h.1 (decide_eq_true (List.not_lt.mp hlt)))
  · intro p
    rw [hperm.mem_iff, List.mem_filter, mem_found_iff, isSource_iff]

theorem Lists.nodup {paths : List (List Component)} (h : Lists root t paths) : paths.Nodup := by
  refine h.sorted.imp fun {p q} hlt => ?_
  rintro rfl
  exact List.lt_irrefl _ hlt

/-- There is one such list. -/
theorem Lists.unique {paths paths' : List (List Component)} (h : Lists root t paths)
    (h' : Lists root t' paths') (hsame : ∀ p, IsSource root t p ↔ IsSource root t' p) :
    paths = paths' := by
  have hperm : paths.Perm paths' := by
    refine (List.perm_ext_iff_of_nodup h.nodup h'.nodup).mpr fun p => ?_
    rw [h.mem_iff, h'.mem_iff, hsame]
  refine hperm.eq_of_pairwise (fun p q _ _ hpq hqp => ?_) h.sorted h'.sorted
  exact absurd (List.lt_trans hpq hqp) (List.lt_irrefl _)

theorem forall_found_iff :
    (∀ p ∈ t.found isKept, t.Reachable p) ↔ ∀ p, IsFound t p → t.Reachable p := by
  simp only [mem_found_iff]

theorem sources_eq_ok {paths : List (List Component)} : sources root t = .ok paths ↔
    (∀ p, IsFound t p → t.Reachable p) ∧ Lists root t paths := by
  rw [sources_eq]
  split_ifs with hreach
  · rw [Except.ok.injEq]
    constructor
    · rintro rfl
      exact ⟨forall_found_iff.mp hreach, lists_mergeSort⟩
    · rintro ⟨-, hlists⟩
      exact lists_mergeSort.unique hlists fun _ => Iff.rfl
  · exact ⟨nofun, fun h => absurd (forall_found_iff.mpr h.1) hreach⟩

theorem sources_eq_error :
    sources root t = .error .access ↔ ∃ p, IsFound t p ∧ ¬ t.Reachable p := by
  have hexists : (∃ p, IsFound t p ∧ ¬ t.Reachable p) ↔ ¬ ∀ p, IsFound t p → t.Reachable p := by
    simp only [not_forall, exists_prop]
  rw [hexists, ← forall_found_iff, sources_eq]
  split_ifs with hreach
  · exact ⟨nofun, fun h => absurd hreach h⟩
  · exact ⟨fun _ => hreach, fun _ => rfl⟩

/-- **What is listed are the sources**, each once and in order: what is found without going into a
directory that is left out, and is no directory, no link and not in `internal/uapi`.  They are
listed if and only if all that is found can be named. -/
theorem sources_exact (root : List Str) (t : FileTree Component) :
    (∀ paths, sources root t = .ok paths ↔
        (∀ p, IsFound t p → t.Reachable p) ∧ Lists root t paths) ∧
      (sources root t = .error .access ↔ ∃ p, IsFound t p ∧ ¬ t.Reachable p) :=
  ⟨fun _ => sources_eq_ok, sources_eq_error⟩

end StyleCheck
