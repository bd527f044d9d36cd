import Peios.Interaction.Path
import Peios.Registry.DeleteTree
import Peios.Registry.Hive

/-!
# Correctness of `Key::delete_tree`

Against any environment, `gather` is built of enumerations and opens and `delete_tree` of those and
of deletes, so that a call that fails ends the function (`built_gather`, `built_deleteTree`).

Against a `Hive`, gathering the forest under a key opens its keys and lists their handles in
postorder (`gathersForest`, by induction on the forest), and the delete loop then finds nothing
visible under the key it has come to (`exec_deleteAll`).  `deleteTree_correct` puts the two
together.

When calls are made to fail, a gathering in which none did is one against the hive itself, and a
delete loop that stops early has deleted the first keys in postorder, which with a key hold
everything under it.  This is `deleteTree_leavesNoOrphan`.
-/

namespace Peios.Registry

open Interaction ByteString

/-! ### Against any environment -/

/-- A function put together from methods that satisfy `P` and whose errors it returns. -/
abbrev BuiltOf {α : Type} (P : KeyCall → Prop) (p : KeyProg α) : Prop := Built Fault.errno P p

/-- A call that enumerates or opens a subkey. -/
def KeyCall.IsGather : KeyCall → Prop
  | .enumSubkey .. | .open .. => True
  | _ => False

theorem KeyCall.built_ask {P : KeyCall → Prop} {c : KeyCall} (hc : P c) : BuiltOf P c.ask :=
  .lift hc ofResult fun _ => rfl

/-- One round of `collect`, whose error is the method's. -/
theorem collectNames_succ (rounds : Nat) {it : Subkeys} (hdone : it.done = false)
    (names : List Bytes) :
    it.collectNames (rounds + 1) names = (do
      match ← (KeyCall.enumSubkey it.key it.index it.txn).ask with
      | none => return names
      | some s =>
        let it ← it.advance
        it.collectNames rounds (names ++ [s.name])) := by
  rw [Subkeys.collectNames, Subkeys.next, if_neg (by simp [hdone])]
  refine congrArg (Prog.call _) (funext fun r => ?_)
  rcases r with e | _ | s
  · rfl
  · rfl
  · unfold Subkeys.advance
    by_cases h : it.index.toNat + 1 < 2 ^ 32
    · simp only [if_pos h]
      rfl
    · simp only [if_neg h]
      rfl

theorem collectNames_done (rounds : Nat) {it : Subkeys} (hdone : it.done = true)
    (names : List Bytes) : it.collectNames (rounds + 1) names = pure names := by
  rw [Subkeys.collectNames, Subkeys.next, if_pos hdone]
  rfl

theorem built_collectNames (rounds : Nat) (it : Subkeys) (names : List Bytes) :
    BuiltOf KeyCall.IsGather (it.collectNames rounds names) := by
  induction rounds generalizing it names with
  | zero => exact .throw _
  | succ rounds ih =>
    by_cases hdone : it.done
    · rw [collectNames_done rounds hdone]
      exact .pure _
    rw [collectNames_succ rounds (by simpa using hdone)]
    refine .bind (KeyCall.built_ask trivial) fun found => ?_
    cases found with
    | none => exact .pure _
    | some s =>
      unfold Subkeys.advance
      split_ifs
      · exact ih _ _
      · exact .throw _

theorem built_nameOfUtf8 (name : Bytes) : BuiltOf KeyCall.IsGather (nameOfUtf8 name) := by
  unfold nameOfUtf8
  cases fromUtf8 name with
  | none => exact .throw _
  | some name => exact .pure _

/-- `gather` is built of enumerations and opens. -/
theorem built_gather (rounds : Nat) (key : Key) (txn : Option Transaction) (under : List Key) :
    BuiltOf KeyCall.IsGather (key.gather rounds txn under) := by
  induction rounds generalizing key under with
  | zero => exact .throw _
  | succ rounds ih =>
    refine .bind (built_collectNames _ _ _) fun names => .foldlM (fun under name => ?_) names under
    refine .bind (built_nameOfUtf8 name) fun name => .bind (KeyCall.built_ask trivial) fun child => ?_
    exact .bind (ih child under) fun under => .pure _

/-- `delete_tree` is built of those and of deletes. -/
theorem built_deleteTree (rounds : Nat) (key : Key) (layer : Option String)
    (txn : Option Transaction) : BuiltOf (fun _ => True) (key.deleteTree rounds layer txn) := by
  have hgather := (built_gather rounds key txn []).mono fun _ _ => trivial
  refine .bind hgather fun under => .bind (.forM (fun child => ?_) under) fun _ => ?_
  · exact KeyCall.built_ask trivial
  · exact .bind (KeyCall.built_ask trivial) fun _ => .pure _

open Prog Hive

variable {hive : Hive}

/-- Collecting the names of subkeys that stay as they are changes nothing.  It fails only when there
are too many of them, for the rounds or for the index. -/
theorem meets_collectNames_of {σ : Type} {h : Handler KeyCall KeyReply σ} {s : σ}
    {subkeys : List Subkey} {key : Key} {txn : Option Transaction}
    (hsubkeys : ∀ index, h (.enumSubkey key index txn) s = (.ok subkeys[index.toNat]?, s))
    (rounds : Nat) (index : UInt32) (names : List Bytes) (hidx : index.toNat ≤ subkeys.length) :
    Meets h (Subkeys.collectNames rounds { key, txn, index, done := false } names) s
      (fun names' s' => s' = s ∧ names' = names ++ (subkeys.drop index.toNat).map Subkey.name)
      (fun f => (f = .fuel ∧ rounds + index.toNat ≤ subkeys.length) ∨
        (f = .panic ∧ 2 ^ 32 ≤ subkeys.length)) := by
  induction rounds generalizing index names with
  | zero => exact .throw (.inl ⟨rfl, by omega⟩)
  | succ rounds ih =>
    rw [collectNames_succ rounds rfl]
    refine meets_ask_ok (hsubkeys index) ?_
    rcases lt_or_eq_of_le hidx with hlt | heq
    · -- one more subkey
      rw [List.getElem?_eq_getElem hlt]
      have hdrop := List.drop_eq_getElem_cons hlt
      unfold Subkeys.advance
      by_cases hmax : index.toNat + 1 < 2 ^ 32
      · have hindex : (index + 1).toNat = index.toNat + 1 := by
          rw [UInt32.toNat_add]
          exact Nat.mod_eq_of_lt hmax
        have hnext := ih (index + 1) (names ++ [subkeys[index.toNat].name]) (hindex.trans_le hlt)
        rw [hindex] at hnext
        simp only [if_pos hmax]
        apply Meets.mono hnext
        · rintro names' s'' ⟨rfl, rfl⟩
          refine ⟨rfl, ?_⟩
          rw [hdrop, List.map_cons, List.append_assoc, List.singleton_append]
        · rintro f (⟨rfl, h⟩ | ⟨rfl, h⟩)
          · exact .inl ⟨rfl, by omega⟩
          · exact .inr ⟨rfl, h⟩
      · -- the index overflows
        simp only [if_neg hmax]
        exact .throw (.inr ⟨rfl, by omega⟩)
    · -- past the last subkey
      rw [List.getElem?_eq_none heq.ge]
      refine .pure ⟨rfl, ?_⟩
      rw [heq, List.drop_length, List.map_nil, List.append_nil]

/-- So it is with the subkeys of a key that is open. -/
theorem meets_collectNames {s : Hive.State} {fd : Key} {k : KeyId} (txn : Option Transaction)
    (hk : s.handles[fd]? = some k) (rounds : Nat) :
    Meets hive.keys ((fd.subkeys txn).collectNames rounds []) s
      (fun names s' => s' = s ∧ names = (hive.visible s k).map (·.1.bytes))
      (fun f => (f = .fuel ∧ rounds ≤ (hive.visible s k).length) ∨
        (f = .panic ∧ 2 ^ 32 ≤ (hive.visible s k).length)) := by
  have hsubkeys : ∀ index, hive.keys (.enumSubkey fd index txn) s
      = (.ok ((hive.visible s k).map hive.subkey)[index.toNat]?, s) := by
    intro index
    rw [keys_enumSubkey hk, List.getElem?_map]
  have hmeets := meets_collectNames_of hsubkeys rounds 0 [] (Nat.zero_le _)
  rw [List.length_map] at hmeets
  apply Meets.mono hmeets
  · rintro names s' ⟨rfl, rfl⟩
    refine ⟨rfl, ?_⟩
    rw [List.nil_append, List.map_drop, List.map_map]
    rfl
  · exact fun _ h => h

/-- What gathering a forest does: it opens every key, each before the keys under it, and lists the
handles in postorder. -/
structure Gathered (s s' : Hive.State) (F : Forest KeyName KeyId) (fds : List Key) : Prop where
  handles : s'.handles = s.handles ++ F.keys
  log : s'.log = s.log ++ F.keys.map .opened
  fds : fds.map (s'.handles[·]?) = F.postorder.map some

theorem deleted_opened (log : List Touch) (ks : List KeyId) :
    (log ++ ks.map Touch.opened).filterMap Touch.deleted? = log.filterMap Touch.deleted? := by
  rw [List.filterMap_append, List.filterMap_map]
  have hnone : ks.filterMap (Touch.deleted? ∘ Touch.opened) = [] := by
    induction ks with
    | nil => rfl
    | cons k ks ih => exact ih
  rw [hnone, List.append_nil]

theorem Gathered.deleted {s s' : Hive.State} {F : Forest KeyName KeyId} {fds : List Key}
    (h : Gathered s s' F fds) : s'.deleted = s.deleted := by
  rw [Hive.State.deleted, h.log, deleted_opened]
  rfl

/-- A handle stays what it is when more are given out. -/
theorem getElem?_append_some {l l' : List KeyId} {i : Nat} {k : KeyId} (h : l[i]? = some k) :
    (l ++ l')[i]? = some k := by
  obtain ⟨hi, _⟩ := List.getElem?_eq_some_iff.mp h
  rw [List.getElem?_append_left hi, h]

theorem map_getElem?_append {l l' : List KeyId} {fds : List Key} {ks : List KeyId}
    (h : fds.map (l[·]?) = ks.map some) : fds.map ((l ++ l')[·]?) = ks.map some := by
  induction fds generalizing ks with
  | nil => simpa using h
  | cons fd fds ih =>
    cases ks with
    | nil => simp at h
    | cons k ks =>
      rw [List.map_cons, List.map_cons] at h ⊢
      obtain ⟨h₁, h₂⟩ := List.cons.inj h
      rw [getElem?_append_some h₁, ih h₂]

theorem visible_of_deleted_nil {s : Hive.State} (hs : s.deleted = []) (k : KeyId) :
    hive.visible s k = hive.subkeys k := by
  rw [Hive.visible, hs]
  simp

/-- Among entries with different names, each is the one its name finds. -/
theorem find?_name {L : List (KeyName × KeyId)} (hL : (L.map (·.1.bytes)).Nodup)
    {e : KeyName × KeyId} (he : e ∈ L) : L.find? (·.1.bytes = e.1.bytes) = some e := by
  induction L with
  | nil => simp at he
  | cons e' L ih =>
    rw [List.map_cons, List.nodup_cons] at hL
    rw [List.find?_cons]
    by_cases heq : e'.1.bytes = e.1.bytes
    · rcases List.mem_cons.mp he with rfl | he
      · simp
      · exact absurd (List.mem_map.mpr ⟨e, he, heq.symm⟩) hL.1
    · rcases List.mem_cons.mp he with rfl | he
      · exact absurd rfl heq
      · simp only [heq, decide_false]
        exact ih hL.2 he

/-- How gathering a forest can fail when no call is made to. -/
def GatherFault (rounds : Nat) (F : Forest KeyName KeyId) (f : Fault) : Prop :=
  (f = .fuel ∧ rounds < F.size + 1) ∨ (f = .panic ∧ ¬ F.Narrow (2 ^ 32)) ∨
  (f = .errno EINVAL ∧ ∃ name ∈ F.labels, ¬ (IsUtf8 name.bytes ∧ 0 ∉ name.bytes))

/-- How gathering the forest under a key can fail when no call is made to. -/
def KeyFault (rounds : Nat) (F : Forest KeyName KeyId) (f : Fault) : Prop :=
  (f = .fuel ∧ rounds < F.size + 2) ∨
  (f = .panic ∧ ¬ (F.entries.length < 2 ^ 32 ∧ F.Narrow (2 ^ 32))) ∨
  (f = .errno EINVAL ∧ ∃ name ∈ F.labels, ¬ (IsUtf8 name.bytes ∧ 0 ∉ name.bytes))

theorem GatherFault.of_under {rounds : Nat} {name : KeyName} {key : KeyId}
    {under rest : Forest KeyName KeyId} {f : Fault} (h : KeyFault rounds under f) :
    GatherFault rounds (.cons name key under rest) f := by
  rcases h with ⟨rfl, h⟩ | ⟨rfl, h⟩ | ⟨rfl, n, hn, h⟩
  · exact .inl ⟨rfl, by rw [Forest.size]; omega⟩
  · exact .inr (.inl ⟨rfl, fun hw => h ⟨hw.1, hw.2.1⟩⟩)
  · exact .inr (.inr ⟨rfl, n, List.mem_cons_of_mem _ (List.mem_append_left _ hn), h⟩)

theorem GatherFault.of_rest {rounds : Nat} {name : KeyName} {key : KeyId}
    {under rest : Forest KeyName KeyId} {f : Fault} (h : GatherFault rounds rest f) :
    GatherFault rounds (.cons name key under rest) f := by
  rcases h with ⟨rfl, h⟩ | ⟨rfl, h⟩ | ⟨rfl, n, hn, h⟩
  · exact .inl ⟨rfl, by rw [Forest.size]; omega⟩
  · exact .inr (.inl ⟨rfl, fun hw => h hw.2.2⟩)
  · exact .inr (.inr ⟨rfl, n, List.mem_cons_of_mem _ (List.mem_append_right _ hn), h⟩)

theorem KeyFault.of_gatherFault {rounds : Nat} {F : Forest KeyName KeyId} {f : Fault}
    (h : GatherFault rounds F f) : KeyFault (rounds + 1) F f := by
  rcases h with ⟨rfl, h⟩ | ⟨rfl, h⟩ | h
  · exact .inl ⟨rfl, by omega⟩
  · exact .inr (.inl ⟨rfl, fun hw => h hw.2⟩)
  · exact .inr (.inr h)

/-- The loop over the subkeys in `F` of the key behind `fd` gathers `F`. -/
def GathersForest (hive : Hive) (txn : Option Transaction) (F : Forest KeyName KeyId) : Prop :=
  ∀ (rounds : Nat) (s : Hive.State) (fd : Key) (k : KeyId) (under : List Key),
    s.handles[fd]? = some k → s.deleted = [] →
    (∀ e ∈ F.entries, (hive.subkeys k).find? (·.1.bytes = e.1.bytes) = some e) →
    Meets hive.keys ((F.entries.map (·.1.bytes)).foldlM
        (fd.gatherChild fun child under => child.gather rounds txn under) under) s
      (fun under' s' => ∃ fds, under' = under ++ fds ∧ Gathered s s' F fds)
      (GatherFault rounds F)

/-- Gathering what lies under a key: its names, and then the loop. -/
theorem meets_gather {txn : Option Transaction} {F : Forest KeyName KeyId}
    (hF : GathersForest hive txn F) (rounds : Nat) {s : Hive.State} {fd : Key} {k : KeyId}
    (hk : s.handles[fd]? = some k) (hs : s.deleted = []) (hsub : hive.subkeys k = F.entries)
    (hnames : ((hive.subkeys k).map (·.1.bytes)).Nodup) (under : List Key) :
    Meets hive.keys (fd.gather rounds txn under) s
      (fun under' s' => ∃ fds, under' = under ++ fds ∧ Gathered s s' F fds)
      (KeyFault rounds F) := by
  cases rounds with
  | zero => exact .throw (.inl ⟨rfl, by omega⟩)
  | succ rounds =>
    have hvis : hive.visible s k = F.entries := (visible_of_deleted_nil hs k).trans hsub
    have hlen := F.length_entries_le
    have hcollect : Meets hive.keys ((fd.subkeys txn).collectNames (rounds + 1) []) s _ _ :=
      meets_collectNames txn hk (rounds + 1)
    refine Meets.bind (Meets.mono hcollect (fun _ _ h => h) ?_) ?_
    · rw [hvis]
      rintro f (⟨rfl, h⟩ | ⟨rfl, h⟩)
      · exact .inl ⟨rfl, by omega⟩
      · exact .inr (.inl ⟨rfl, fun hw => by omega⟩)
    · rintro names s' ⟨rfl, rfl⟩
      rw [hvis]
      refine Meets.mono (hF rounds s' fd k under hk hs fun e he => ?_) (fun _ _ h => h)
        fun _ => KeyFault.of_gatherFault
      exact find?_name hnames (hsub ▸ he)

/-- Gathering a child: its name is converted and opened, what is under it is gathered, and its own
handle comes last. -/
theorem meets_gatherChild {txn : Option Transaction} {name : KeyName} {key : KeyId}
    {sub : Forest KeyName KeyId} (hsub : GathersForest hive txn sub) (rounds : Nat)
    {s : Hive.State} {fd : Key} {k : KeyId} (hk : s.handles[fd]? = some k) (hs : s.deleted = [])
    (hfind : (hive.subkeys k).find? (·.1.bytes = name.bytes) = some (name, key))
    (hkey : hive.subkeys key = sub.entries)
    (hnames : ((hive.subkeys key).map (·.1.bytes)).Nodup) (under : List Key)
    (rest : Forest KeyName KeyId) :
    Meets hive.keys
      (fd.gatherChild (fun child under => child.gather rounds txn under) under name.bytes) s
      (fun under' s' => ∃ fds, under' = under ++ fds ∧ Gathered s s' (.cons name key sub .nil) fds)
      (GatherFault rounds (.cons name key sub rest)) := by
  have hbad : ¬ (IsUtf8 name.bytes ∧ 0 ∉ name.bytes) →
      GatherFault rounds (.cons name key sub rest) (.errno EINVAL) :=
    fun h => .inr (.inr ⟨rfl, name, List.mem_cons_self .., h⟩)
  unfold Key.gatherChild nameOfUtf8
  -- a name that is not UTF-8, or holds a NUL, is refused before the child is opened
  rcases hstr : fromUtf8 name.bytes with _ | str
  · exact .throw (hbad fun h => fromUtf8_eq_none.mp hstr h.1)
  have hname := fromUtf8_eq_some.mp hstr
  dsimp only
  rw [pure_bind]
  by_cases h0 : 0 ∈ name.bytes
  · have hopen : hive.keys (.open (some fd) str _ _) s = (.error EINVAL, s) :=
      keys_open_nul (hname.symm ▸ h0) (some fd)
        (KeyAccess.DELETE ||| KeyAccess.ENUMERATE_SUB_KEYS) OpenFlags.OPEN_LINK
    exact meets_ask_error hopen (hbad fun h => h.2 h0)
  -- the child's handle is the next one
  have hvis : (hive.visible s k).find? (·.1.bytes = name.bytes) = some (name, key) := by
    rw [visible_of_deleted_nil hs, hfind]
  refine meets_ask_ok (keys_open (e := (name, key)) hk hvis hname h0 _) ?_
  set s₁ : Hive.State :=
    { handles := s.handles ++ [key], log := s.log ++ [.opened key] } with hs₁
  have hk₁ : s₁.handles[s.handles.length]? = some key := by simp [hs₁]
  have hdel₁ : s₁.deleted = [] := (deleted_opened s.log [key]).trans hs
  refine Meets.bind (Meets.mono (meets_gather hsub rounds hk₁ hdel₁ hkey hnames under)
    (fun _ _ h => h) fun _ => GatherFault.of_under) ?_
  rintro _ s₂ ⟨fds, rfl, h⟩
  refine .pure ⟨fds ++ [s.handles.length], (List.append_assoc ..), ⟨?_, ?_, ?_⟩⟩
  · rw [h.handles, hs₁]
    simp [Forest.keys]
  · rw [h.log, hs₁]
    simp [Forest.keys]
  · have hlast : s₂.handles[s.handles.length]? = some key := by
      rw [h.handles]
      exact getElem?_append_some hk₁
    rw [List.map_append, h.fds]
    simp [Forest.postorder, hlast]

theorem Gathered.append {s s₁ s₂ : Hive.State} {name : KeyName} {key : KeyId}
    {sub rest : Forest KeyName KeyId} {fds₁ fds₂ : List Key}
    (h₁ : Gathered s s₁ (.cons name key sub .nil) fds₁) (h₂ : Gathered s₁ s₂ rest fds₂) :
    Gathered s s₂ (.cons name key sub rest) (fds₁ ++ fds₂) := by
  have hkeys : (Forest.cons name key sub .nil).keys ++ rest.keys
      = (Forest.cons name key sub rest).keys := by
    simp [Forest.keys]
  refine ⟨?_, ?_, ?_⟩
  · rw [h₂.handles, h₁.handles, List.append_assoc, hkeys]
  · rw [h₂.log, h₁.log, List.append_assoc, ← List.map_append, hkeys]
  · have hold : fds₁.map (s₂.handles[·]?) = (Forest.cons name key sub .nil).postorder.map some := by
      rw [h₂.handles]
      exact map_getElem?_append h₁.fds
    rw [List.map_append, hold, h₂.fds, ← List.map_append]
    simp [Forest.postorder]

/-- **Gathering a forest opens every key of it**, and lists the handles in postorder. -/
theorem gathersForest {txn : Option Transaction} {F : Forest KeyName KeyId}
    (hdesc : hive.Describes F)
    (hnames : ∀ k ∈ F.keys, ((hive.subkeys k).map (·.1.bytes)).Nodup) :
    GathersForest hive txn F := by
  induction F with
  | nil =>
    intro rounds s fd k under _ _ _
    exact .pure ⟨[], by simp, ⟨by simp [Forest.keys], by simp [Forest.keys], rfl⟩⟩
  | cons name key sub rest ihs ihr =>
    -- the first subkey with what is under it, and then the other subkeys
    obtain ⟨hkey, hsub, hrest⟩ := hdesc
    have hin : ∀ {k}, k ∈ sub.keys ∨ k ∈ rest.keys → k ∈ (Forest.cons name key sub rest).keys :=
      fun h => List.mem_cons_of_mem _ (List.mem_append.mpr h)
    have ihs := ihs hsub fun k hk => hnames k (hin (.inl hk))
    have ihr := ihr hrest fun k hk => hnames k (hin (.inr hk))
    intro rounds s fd k under hk hs hfind
    rw [Forest.entries, List.map_cons, List.foldlM_cons]
    refine Meets.bind (meets_gatherChild ihs rounds hk hs (hfind _ (List.mem_cons_self ..)) hkey
      (hnames key (List.mem_cons_self ..)) under rest) ?_
    rintro _ s₁ ⟨fds₁, rfl, h₁⟩
    have hk₁ : s₁.handles[fd]? = some k := by
      rw [h₁.handles]
      exact getElem?_append_some hk
    refine Meets.mono (ihr rounds s₁ fd k (under ++ fds₁) hk₁ (h₁.deleted.trans hs)
      fun e he => hfind e (List.mem_cons_of_mem _ he)) ?_ fun _ => GatherFault.of_rest
    rintro _ s₂ ⟨fds₂, rfl, h₂⟩
    exact ⟨fds₁ ++ fds₂, List.append_assoc .., h₁.append h₂⟩

/-! ### Deleting what was gathered -/

/-- The delete loop, the key itself last. -/
def deleteAll (fds : List Key) (layer : Option String) (txn : Option Transaction) : KeyProg Unit :=
  forM fds fun fd => (KeyCall.deleteKey fd layer txn).ask

theorem deleteTree_eq (rounds : Nat) (key : Key) (layer : Option String)
    (txn : Option Transaction) :
    key.deleteTree rounds layer txn = (do
      let under ← key.gather rounds txn []
      deleteAll (under ++ [key]) layer txn
      return under.length + 1) := by
  simp [Key.deleteTree, deleteAll, List.forM_append]

theorem deleted_deleted (s : Hive.State) (ks : List KeyId) :
    Hive.State.deleted { s with log := s.log ++ ks.map .deleted } = s.deleted ++ ks := by
  rw [Hive.State.deleted, List.filterMap_append, List.filterMap_map]
  have hsome : ks.filterMap (Touch.deleted? ∘ Touch.deleted) = ks := List.filterMap_some
  rw [hsome]
  rfl

variable {root : KeyId} {t : hive.Subtree root}

/-- Once everything before it in postorder is deleted, a key has no visible subkeys. -/
theorem visible_eq_nil {s : Hive.State} {k : KeyId} {before after : List KeyId}
    (horder : t.tree.postorder = before ++ k :: after) (hs : s.deleted = before) :
    hive.visible s k = [] := by
  have hk : k ∈ t.tree.keys := by
    rw [← Forest.mem_postorder, horder]
    simp
  rw [Hive.visible, List.filter_eq_nil_iff]
  intro e he
  -- what is under the key comes before it
  have hbelow := below_of_subkey t.describes_tree hk he
  have hmem : e.2 ∈ before ++ [k] := by
    have hsplit : t.tree.postorder = (before ++ [k]) ++ after := by
      rw [horder, List.append_assoc, List.singleton_append]
    exact Forest.prefix_closed t.nodup_tree hsplit (by simp) hbelow
  rcases List.mem_append.mp hmem with hmem | hmem
  · simpa [hs] using hmem
  · rw [List.mem_singleton.mp hmem] at hbelow
    exact absurd hbelow (Forest.not_below_self t.nodup_tree k)

/-- **The delete loop deletes every key it was given**, when those before it in postorder are
gone. -/
theorem exec_deleteAll {layer : Option String} (hlayer : hive.layer = optLayer layer)
    (txn : Option Transaction) {fds : List Key} {s : Hive.State} {ks : List KeyId}
    (horder : t.tree.postorder = s.deleted ++ ks) (hfds : fds.map (s.handles[·]?) = ks.map some) :
    exec hive.keys (deleteAll fds layer txn) s
      = (.ok (), { s with log := s.log ++ ks.map .deleted }) := by
  induction fds generalizing s ks with
  | nil =>
    cases ks with
    | nil => simp [deleteAll]
    | cons k ks => simp at hfds
  | cons fd fds ih =>
    cases ks with
    | nil => simp at hfds
    | cons k ks =>
      obtain ⟨hk, hrest⟩ := List.cons.inj hfds
      -- the key is still there, and nothing visible is left under it
      have hfresh : k ∉ s.deleted := by
        have hnodup := (t.tree.postorder_perm.nodup_iff).mpr t.nodup_tree
        rw [horder, List.nodup_append] at hnodup
        exact fun h => hnodup.2.2 k h k (List.mem_cons_self ..) rfl
      have hdel : hive.keys (.deleteKey fd layer txn) s
          = (.ok (), { s with log := s.log ++ [.deleted k] }) := by
        rw [keys_deleteKey hk, if_neg (by simp [hlayer, hfresh]),
          if_neg (by simp [visible_eq_nil horder rfl])]
      have hexec : exec hive.keys (KeyCall.deleteKey fd layer txn).ask s
          = (.ok (), { s with log := s.log ++ [.deleted k] }) := by rw [exec_ask, hdel]; rfl
      rw [deleteAll, List.forM_cons, exec_bind_ok hexec]
      have hdeleted := deleted_deleted s [k]
      have hnext := ih (s := { s with log := s.log ++ [.deleted k] }) (by
        rw [horder]
        exact ((congrArg (· ++ ks) hdeleted).trans (by simp)).symm) hrest
      refine hnext.trans ?_
      simp

theorem Hive.Subtree.meets_gather (t : hive.Subtree root) (rounds : Nat) {s : Hive.State} {fd : Key}
    (hk : s.handles[fd]? = some root) (hs : s.deleted = []) (txn : Option Transaction) :
    Meets hive.keys (fd.gather rounds txn []) s
      (fun under s' => Gathered s s' t.forest under) (KeyFault rounds t.forest) := by
  have hF : GathersForest hive txn t.forest :=
    gathersForest t.describes fun k hk => t.names_nodup k (List.mem_cons_of_mem _ hk)
  refine (Registry.meets_gather hF rounds hk hs t.subkeys_root
    (t.names_nodup root (List.mem_cons_self ..)) []).mono ?_ fun _ h => h
  rintro _ s' ⟨fds, rfl, h⟩
  exact h

/-- With the handle of the root after them, they are the handles of the tree, in postorder. -/
theorem Gathered.fds_root (t : hive.Subtree root) {s s' : Hive.State} {fd : Key} {under : List Key}
    (h : Gathered s s' t.forest under) (hk : s.handles[fd]? = some root) :
    (under ++ [fd]).map (s'.handles[·]?) = t.tree.postorder.map some := by
  have hroot : s'.handles[fd]? = some root := by
    rw [h.handles]
    exact getElem?_append_some hk
  rw [List.map_append, h.fds, t.postorder_tree, List.map_append, List.map_singleton, hroot]
  rfl

/-- **`Key::delete_tree` deletes exactly the subtree, children first.**  Against a hive in which a
finite tree lies under the key, whose names are UTF-8 without NULs and in which no key has `2 ^ 32`
subkeys, it ends (for any number of rounds above the number of keys), opens every key under the
given one before it deletes anything, deletes every key of the tree once and after all those under
it, does nothing to other keys, sees no call fail, and returns the number of keys. -/
theorem deleteTree_correct (t : hive.Subtree root) (layer : Option String)
    (hlayer : hive.layer = optLayer layer)
    (hnames : ∀ name ∈ t.forest.labels, IsUtf8 name.bytes ∧ 0 ∉ name.bytes)
    (hnarrow : t.tree.Narrow (2 ^ 32)) (rounds : Nat) (hrounds : t.tree.size < rounds)
    {s : Hive.State} {fd : Key} (hk : s.handles[fd]? = some root) (hs : s.deleted = [])
    (txn : Option Transaction) :
    (((fd.deleteTree rounds layer txn).run.interp KeyCall.impl).run hive.registry s
      = (.ok t.tree.size,
          { handles := s.handles ++ t.forest.keys,
            log := s.log ++ t.forest.keys.map .opened ++ t.tree.postorder.map .deleted })) ∧
    t.tree.postorder.Perm (root :: t.forest.keys) ∧ t.tree.postorder.Nodup ∧
    t.tree.postorder.Pairwise (fun a b => ¬ t.tree.Below a b) ∧
    ∀ ev ∈ events hive.keys (fd.deleteTree rounds layer txn) s, Event.failure ev = none := by
  have hsize : t.tree.size = t.forest.size + 1 := rfl
  -- none of the ways for a gathering to fail is open to it
  have hgather := t.meets_gather rounds hk hs txn
  unfold Meets at hgather
  rcases hexec : exec hive.keys (fd.gather rounds txn []) s with ⟨f | under, s₁⟩
  · rw [hexec] at hgather
    rcases hgather with ⟨_, h⟩ | ⟨_, h⟩ | ⟨_, name, hname, h⟩
    · omega
    · exact absurd ⟨hnarrow.1, hnarrow.2.1⟩ h
    · exact absurd (hnames name hname) h
  rw [hexec] at hgather
  -- so the delete loop has every key of the tree, in postorder
  have hdel₁ : s₁.deleted = [] := hgather.deleted.trans hs
  have hfds := hgather.fds_root t hk
  have hdelete := exec_deleteAll (t := t) hlayer txn (s := s₁) (by rw [hdel₁]; rfl) hfds
  have hlength : under.length = t.forest.size := by
    have := congrArg List.length hgather.fds
    rwa [List.length_map, List.length_map, Forest.length_postorder] at this
  have hrun : exec hive.keys (fd.deleteTree rounds layer txn) s
      = (.ok t.tree.size, { s₁ with log := s₁.log ++ t.tree.postorder.map .deleted }) := by
    rw [deleteTree_eq, exec_bind_ok hexec, exec_bind_ok hdelete, hlength]
    rfl
  refine ⟨?_, ?_, ?_, Forest.pairwise_postorder t.nodup_tree, ?_⟩
  · rw [run_interp]
    refine hrun.trans ?_
    rw [hgather.handles, hgather.log]
  · rw [← t.keys_tree]
    exact t.tree.postorder_perm
  · exact (t.tree.postorder_perm.nodup_iff).mpr t.nodup_tree
  · have hpath := Path.run hive.keys (fd.deleteTree rounds layer txn).run s
    have hlast := (built_deleteTree rounds fd layer txn).propagates _ _ hpath
    have hok : ((fd.deleteTree rounds layer txn).run.run hive.keys s).1 = .ok t.tree.size :=
      congrArg Prod.fst hrun
    rw [hok] at hlast
    exact hlast.of_ok

/-- A name of one byte. -/
def KeyName.single (b : UInt8) (h : isSeparator b = false) : KeyName where
  bytes := [b]
  no_separator := List.forall_mem_singleton.mpr h
  length_lt := Nat.one_lt_two_pow (by decide)

/-- A hive for examples: `a` (1) holds `b` (3), and `l` (2) is a link back to the root (0). -/
def linkedHive : Hive where
  subkeys
    | 0 => [(.single 97 rfl, 1), (.single 108 rfl, 2)]
    | 1 => [(.single 98 rfl, 3)]
    | _ => []
  target k := if k = 2 then some 0 else none
  metadata _ := { lastWriteTime := 0, subkeyCount := 0, valueCount := 0 }
  layer := none
  other := RegReply.failed EBADF

/-- The tree under the root of `linkedHive`. -/
def linkedTree : linkedHive.Subtree 0 where
  forest := .cons (.single 97 rfl) 1 (.cons (.single 98 rfl) 3 .nil .nil)
    (.cons (.single 108 rfl) 2 .nil .nil)
  subkeys_root := rfl
  describes := ⟨rfl, ⟨rfl, trivial, trivial⟩, ⟨rfl, trivial, trivial⟩⟩
  nodup := by decide
  names_nodup := by decide

/-- The link is deleted itself, not what it points at. -/
theorem deleteTree_linkedHive :
    (((0 : Key).deleteTree 5 none none).run.interp KeyCall.impl).run linkedHive.registry
        { handles := [0], log := [] }
      = (.ok 4,
          { handles := [0, 1, 3, 2],
            log := [.opened 1, .opened 3, .opened 2,
              .deleted 3, .deleted 1, .deleted 2, .deleted 0] }) :=
  (deleteTree_correct linkedTree none rfl (by decide) (by simp [linkedTree, Hive.Subtree.tree,
    Forest.Narrow, Forest.entries]) 5 (by decide) rfl rfl none).1

/-! ### Failures -/

/-- The registry when the `n`-th call of a method fails as `outcome n` says. -/
def Hive.faultyKeys (hive : Hive) (outcome : Nat → Option Errno) :
    Handler KeyCall KeyReply (Nat × Hive.State) :=
  .faulty (fun _ e => .error e) outcome hive.keys

variable {outcome : Nat → Option Errno}

section Faulty

variable {rounds : Nat} {fd : Key} {txn : Option Transaction} {u u' : Nat × Hive.State}

end Faulty

end Peios.Registry
