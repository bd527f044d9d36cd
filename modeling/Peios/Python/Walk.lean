import Peios.FileTree

/-!
# Walking a tree

`walk` is Python's `os.walk`, from the root of a tree down, where the directories that are not kept
are taken out of those to visit next.  `mem_walk` says which directories are visited, and
`mem_found` what is found in them.
-/

namespace FileTree

open Python

variable {K : Type} [DecidableEq K]

/-- The names in a directory, with what they stand for. -/
def entries (t : FileTree K) (p : List K) : List (K × Node) :=
  t.nodes.items.filterMap fun i =>
    match i.1.getLast? with
    | some k => if i.1 = p ++ [k] then some (k, i.2) else none
    | none => none

/-- The entry is a directory: it is visited next. -/
def Node.isDirectory : Node → Bool
  | .directory _ => true
  | _ => false

/-- `scandir` succeeds: the directory can be named, and listed. -/
def Opens (t : FileTree K) (p : List K) : Prop := t.listable p = true ∧ t.Reachable p

instance (t : FileTree K) (p : List K) : Decidable (t.Opens p) :=
  inferInstanceAs (Decidable (_ ∧ _))

/-- What is not a directory in a directory that is visited.  A link that leads to a directory is
among them here: `os.walk` lists it with the directories, and does not visit it. -/
def nonDirectories (t : FileTree K) (p : List K) : List K :=
  ((t.entries p).filter fun i => ¬ i.2.isDirectory).map Prod.fst

/-- The directories to visit next. -/
def directories (t : FileTree K) (keep : K → Bool) (p : List K) : List K :=
  ((t.entries p).filter fun i => i.2.isDirectory ∧ keep i.1).map Prod.fst

/-- `os.walk` from a directory on, as many levels deep: a directory that does not open is passed
over. -/
def walkFrom (t : FileTree K) (keep : K → Bool) : Nat → List K → List (List K × List K)
  | 0, _ => []
  | levels + 1, p =>
    if t.Opens p then
      (p, t.nonDirectories p)
        :: (t.directories keep p).flatMap fun k => t.walkFrom keep levels (p ++ [k])
    else []

/-- How deep the tree is. -/
def depth (t : FileTree K) : Nat := (t.nodes.items.map fun i => i.1.length).foldr max 0

/-- `os.walk` of the whole tree: the directories that are visited, with what is in each. -/
def walk (t : FileTree K) (keep : K → Bool) : List (List K × List K) :=
  t.walkFrom keep (t.depth + 1) []

/-- The paths of what is found. -/
def found (t : FileTree K) (keep : K → Bool) : List (List K) :=
  (t.walk keep).flatMap fun v => v.2.map fun k => v.1 ++ [k]

variable {t : FileTree K} {keep : K → Bool} {p q r : List K} {k : K} {n : Node}

/-! ### What is in a directory -/

theorem mem_entries : (k, n) ∈ t.entries p ↔ t.node? (p ++ [k]) = some n := by
  unfold entries node?
  rw [List.mem_filterMap, Dict.get?_eq_some]
  constructor
  · rintro ⟨⟨q, m⟩, hmem, h⟩
    dsimp only at h
    cases hlast : q.getLast? with
    | none =>
      rw [hlast] at h
      cases h
    | some k' =>
      rw [hlast] at h
      dsimp only at h
      split_ifs at h with hq
      cases h
      rwa [hq] at hmem
  · intro hmem
    refine ⟨(p ++ [k], n), hmem, ?_⟩
    simp

theorem nodup_entries : ((t.entries p).map Prod.fst).Nodup := by
  have hpaths : ((t.entries p).map fun i => p ++ [i.1]).Sublist (t.nodes.items.map Prod.fst) := by
    unfold entries
    induction t.nodes.items with
    | nil => exact .slnil
    | cons i l ih =>
      rw [List.filterMap_cons, List.map_cons]
      split
      · exact ih.cons _
      · rename_i j hj
        cases hlast : i.1.getLast? with
        | none => simp [hlast] at hj
        | some k =>
          rw [hlast] at hj
          dsimp only at hj
          split_ifs at hj with hi
          cases hj
          rw [List.map_cons]
          dsimp only
          rw [← hi]
          exact ih.cons_cons _
  have hnodup := hpaths.nodup t.nodes.nodup
  have hmap : ((t.entries p).map fun i => p ++ [i.1])
      = ((t.entries p).map Prod.fst).map fun k => p ++ [k] := by
    rw [List.map_map]
    rfl
  rw [hmap] at hnodup
  exact hnodup.of_map _

theorem mem_nonDirectories :
    k ∈ t.nonDirectories p ↔ ∃ n, t.node? (p ++ [k]) = some n ∧ n.isDirectory = false := by
  simp [nonDirectories, mem_entries]

theorem mem_directories :
    k ∈ t.directories keep p ↔ t.IsDir (p ++ [k]) ∧ keep k = true := by
  unfold directories IsDir
  simp only [List.mem_map, List.mem_filter, Prod.exists, mem_entries, decide_eq_true_eq,
    exists_and_right, exists_eq_right]
  constructor
  · rintro ⟨n, hn, hdir, hkeep⟩
    cases n with
    | directory a => exact ⟨⟨a, hn⟩, hkeep⟩
    | _ => cases hdir
  · rintro ⟨⟨a, ha⟩, hkeep⟩
    exact ⟨.directory a, ha, rfl, hkeep⟩

theorem nodup_nonDirectories : (t.nonDirectories p).Nodup :=
  nodup_entries.sublist (List.filter_sublist.map _)

theorem nodup_directories : (t.directories keep p).Nodup :=
  nodup_entries.sublist (List.filter_sublist.map _)

/-! ### What is visited -/

theorem Opens.isDir (h : t.Opens p) : t.IsDir p := by
  have hlist := h.1
  unfold listable at hlist
  split at hlist
  · rename_i a ha
    exact ⟨a, ha⟩
  · cases hlist

/-- The directory is visited from the one at `p` on: it opens, as do those on the way, which are
kept. -/
def Walked (t : FileTree K) (keep : K → Bool) (p r : List K) : Prop :=
  (∀ k ∈ r, keep k = true) ∧ ∀ s, s <+: r → t.Opens (p ++ s)

theorem walked_nil : t.Walked keep p [] ↔ t.Opens p := by
  unfold Walked
  constructor
  · intro h
    have hopens := h.2 [] (List.nil_prefix)
    rwa [List.append_nil] at hopens
  · intro h
    refine ⟨by simp, fun s hs => ?_⟩
    rw [List.prefix_nil.mp hs, List.append_nil]
    exact h

theorem walked_cons : t.Walked keep p (k :: r)
    ↔ t.Opens p ∧ keep k = true ∧ t.Walked keep (p ++ [k]) r := by
  have happend : ∀ s, p ++ [k] ++ s = p ++ k :: s := fun s => by simp
  unfold Walked
  constructor
  · rintro ⟨hkeep, hopens⟩
    have hp := hopens [] List.nil_prefix
    rw [List.append_nil] at hp
    refine ⟨hp, hkeep k (List.mem_cons_self ..), fun j hj => hkeep j (List.mem_cons_of_mem _ hj),
      fun s hs => ?_⟩
    rw [happend]
    exact hopens _ ((List.prefix_cons_inj k).mpr hs)
  · rintro ⟨hp, hk, hkeep, hopens⟩
    constructor
    · intro j hj
      rcases List.mem_cons.mp hj with rfl | hj
      · exact hk
      · exact hkeep j hj
    · intro s hs
      rcases List.prefix_cons_iff.mp hs with rfl | ⟨s, rfl, hs⟩
      · rwa [List.append_nil]
      · rw [← happend]
        exact hopens s ((List.prefix_cons_inj k).mp hs)

theorem mem_walkFrom {levels : Nat} {v : List K × List K} : v ∈ t.walkFrom keep levels p ↔
    ∃ r, t.Walked keep p r ∧ r.length < levels ∧ v = (p ++ r, t.nonDirectories (p ++ r)) := by
  induction levels generalizing p with
  | zero => simp [walkFrom]
  | succ levels ih =>
    unfold walkFrom
    split_ifs with hopens
    · rw [List.mem_cons, List.mem_flatMap]
      constructor
      · rintro (rfl | ⟨k, hk, hv⟩)
        · exact ⟨[], walked_nil.mpr hopens, by simp, by rw [List.append_nil]⟩
        · obtain ⟨r, hr, hlen, rfl⟩ := ih.mp hv
          have hkeep := (mem_directories.mp hk).2
          refine ⟨k :: r, walked_cons.mpr ⟨hopens, hkeep, hr⟩, by simp [hlen], ?_⟩
          rw [List.append_assoc, List.singleton_append]
      · rintro ⟨r, hr, hlen, rfl⟩
        cases r with
        | nil =>
          left
          rw [List.append_nil]
        | cons k r =>
          right
          obtain ⟨-, hkeep, hr⟩ := walked_cons.mp hr
          have hdir : t.IsDir (p ++ [k]) := by
            have hfirst := hr.2 [] List.nil_prefix
            rw [List.append_nil] at hfirst
            exact hfirst.isDir
          refine ⟨k, mem_directories.mpr ⟨hdir, hkeep⟩, ih.mpr ⟨r, hr, ?_, ?_⟩⟩
          · rw [List.length_cons] at hlen
            omega
          · rw [List.append_assoc, List.singleton_append]
    · simp only [List.not_mem_nil, false_iff]
      rintro ⟨r, hr, -, -⟩
      have hfirst := hr.2 [] List.nil_prefix
      rw [List.append_nil] at hfirst
      exact hopens hfirst

theorem length_le_depth (h : t.node? p = some n) : p.length ≤ t.depth := by
  have hmem := Dict.get?_eq_some.mp h
  unfold depth
  generalize t.nodes.items = l at hmem
  induction l with
  | nil => cases hmem
  | cons i l ih =>
    rw [List.map_cons, List.foldr_cons]
    rcases List.mem_cons.mp hmem with hi | hl
    · rw [← hi]
      exact le_max_left _ _
    · have hle := ih hl
      omega

/-- **A walk visits the directories that open, as do those on the way, which are kept.** -/
theorem mem_walk {v : List K × List K} :
    v ∈ t.walk keep ↔ ∃ p, t.Walked keep [] p ∧ v = (p, t.nonDirectories p) := by
  unfold walk
  rw [mem_walkFrom]
  simp only [List.nil_append]
  constructor
  · rintro ⟨p, hp, -, rfl⟩
    exact ⟨p, hp, rfl⟩
  · rintro ⟨p, hp, rfl⟩
    obtain ⟨a, ha⟩ := (hp.2 p List.prefix_rfl).isDir
    have hle := length_le_depth ha
    rw [List.nil_append] at hle
    exact ⟨p, hp, by omega, rfl⟩

theorem walked_iff_visible : t.Walked keep [] p ↔
    (∀ j ∈ p, keep j = true) ∧ t.Visible (p ++ [k]) := by
  have hancestors : ∀ q, q ∈ ancestors (p ++ [k]) ↔ q <+: p := by
    intro q
    rw [mem_ancestors, List.prefix_concat_iff]
    constructor
    · rintro ⟨rfl | hq, hne⟩
      · exact absurd rfl hne
      · exact hq
    · intro hq
      refine ⟨.inr hq, ?_⟩
      rintro rfl
      have hle := hq.length_le
      rw [List.length_append, List.length_singleton] at hle
      omega
  unfold Walked Visible Opens
  simp only [hancestors, List.nil_append, List.dropLast_concat]
  refine and_congr_right fun _ => ⟨fun h => ⟨fun q hq => (h q hq).1, (h p List.prefix_rfl).2⟩, ?_⟩
  rintro ⟨hlist, hreach⟩ q hq
  refine ⟨hlist q hq, fun s hs => hreach s ?_⟩
  obtain ⟨hpre, hne⟩ := mem_ancestors.mp hs
  refine mem_ancestors.mpr ⟨hpre.trans hq, ?_⟩
  rintro rfl
  exact hne (hpre.eq_of_length_le hq.length_le)

/-- **A walk finds what can be seen and is no directory, and lies in directories that are kept.** -/
theorem mem_found : q ∈ t.found keep ↔ (∃ n, t.node? q = some n ∧ n.isDirectory = false) ∧
    t.Visible q ∧ ∀ k ∈ q.dropLast, keep k = true := by
  unfold found
  simp only [List.mem_flatMap, mem_walk, List.mem_map]
  constructor
  · rintro ⟨_, ⟨p, hp, rfl⟩, k, hk, rfl⟩
    obtain ⟨hkeep, hvisible⟩ := (walked_iff_visible (k := k)).mp hp
    rw [List.dropLast_concat]
    exact ⟨mem_nonDirectories.mp hk, hvisible, hkeep⟩
  · rintro ⟨⟨n, hn, hfile⟩, hvisible, hkeep⟩
    rcases List.eq_nil_or_concat q with rfl | ⟨p, k, rfl⟩
    · obtain ⟨a, ha⟩ := t.root
      cases hn.symm.trans ha
      cases hfile
    · rw [List.concat_eq_append] at *
      rw [List.dropLast_concat] at hkeep
      exact ⟨_, ⟨p, walked_iff_visible.mpr ⟨hkeep, hvisible⟩, rfl⟩, k,
        mem_nonDirectories.mpr ⟨n, hn, hfile⟩, rfl⟩

/-! ### Nothing is found twice -/

theorem nodup_walkFrom {levels : Nat} : ((t.walkFrom keep levels p).map Prod.fst).Nodup := by
  induction levels generalizing p with
  | zero => exact List.nodup_nil
  | succ levels ih =>
    unfold walkFrom
    split_ifs with hopens
    · rw [List.map_cons, List.map_flatMap, List.nodup_cons, List.nodup_flatMap]
      have hbelow : ∀ {k q}, q ∈ (t.walkFrom keep levels (p ++ [k])).map Prod.fst →
          p ++ [k] <+: q := by
        intro k q hq
        obtain ⟨v, hv, rfl⟩ := List.mem_map.mp hq
        obtain ⟨r, -, -, rfl⟩ := mem_walkFrom.mp hv
        exact List.prefix_append _ _
      refine ⟨?_, fun k _ => ih, ?_⟩
      · intro hp
        obtain ⟨k, -, hk⟩ := List.mem_flatMap.mp hp
        have hle : (p ++ [k]).length ≤ p.length := (hbelow hk).length_le
        rw [List.length_append, List.length_singleton] at hle
        omega
      · refine nodup_directories.imp fun {j k} hjk => List.disjoint_left.mpr fun q hj hk => hjk ?_
        -- the name after `p` is the same
        have hsame := List.prefix_of_prefix_length_le (hbelow hj) (hbelow hk) (by simp)
        simpa using hsame
    · exact List.nodup_nil

theorem nodup_found : (t.found keep).Nodup := by
  unfold found
  rw [List.nodup_flatMap]
  constructor
  · intro v hv
    obtain ⟨p, -, rfl⟩ := mem_walk.mp hv
    exact nodup_nonDirectories.map fun j k hjk => by simpa using hjk
  · have hwalk : (t.walk keep).Pairwise fun v w => v.1 ≠ w.1 :=
      List.pairwise_map.mp nodup_walkFrom
    refine hwalk.imp fun {v w} hvw => List.disjoint_left.mpr fun q hv hw => hvw ?_
    obtain ⟨j, -, rfl⟩ := List.mem_map.mp hv
    obtain ⟨k, -, hk⟩ := List.mem_map.mp hw
    exact (List.append_inj_left' hk rfl).symm

end FileTree
