import Peios.Registry.Equiv.LayerRead

/-!
# Correctness of `list`

`list` reads every key under `LAYERS`, discards the base layer's, and adds the base layer as it
always is.  `list_complete` says that what it returns is then one entry for each of the other keys,
that one entry, and nothing else, in order.

The base layer's key is discarded only after it has been read.  `listOf` is what `list` returns of a
store, errors included, and `list_congr_iff` says when two stores that differ in that key alone are
listed alike.
-/

namespace Peios.Registry.Layers

open Interaction Prog ByteString Security Store

variable {fold : Bytes → Bytes} {lib : SidLib} {lower : String → String} {s : State fold}

/-! ### The order -/

instance : Std.Total (Layer.Before lower) where
  total a b := by
    unfold Layer.Before
    by_cases heq : a.precedence = b.precedence
    · rcases List.le_total (utf8 (lower a.name)) (utf8 (lower b.name)) with hle | hle
      · exact .inl (.inr ⟨heq.symm, hle⟩)
      · exact .inr (.inr ⟨heq, hle⟩)
    · rcases UInt32.lt_or_lt_of_ne heq with hlt | hgt
      · exact .inr (.inl hlt)
      · exact .inl (.inl hgt)

instance : IsTrans Layer (Layer.Before lower) where
  trans a b c := by
    rintro (hab | ⟨hab, hnames⟩) (hbc | ⟨hbc, hnames'⟩)
    · exact .inl (UInt32.lt_trans hbc hab)
    · exact .inl (hbc ▸ hab)
    · exact .inl (hab ▸ hbc)
    · exact .inr ⟨hbc.trans hab, List.le_trans hnames hnames'⟩

/-! ### Entries -/

/-- The keys of the layers have names that are UTF-8. -/
def Utf8Names (store : Store fold) : Prop :=
  ∀ key ∈ store.children (layersPath fold), IsUtf8 key.name.bytes

/-- The keys of the layers are spelled differently. -/
theorem nodup_spelledNames {store : Store fold} (hutf8 : Utf8Names store) :
    (spelledNames store).Nodup := by
  -- a directory has each path once, and these keys lie in one place
  have hchildren : (store.children (layersPath fold)).Nodup :=
    store.nodup.of_map.filter _
  apply List.Nodup.map_on _ hchildren
  intro key hkey key' hkey' heq
  obtain ⟨name, hname⟩ := hutf8 key hkey
  obtain ⟨name', hname'⟩ := hutf8 key' hkey'
  rw [← hname, ← hname', fromUtf8Lossy_utf8, fromUtf8Lossy_utf8] at heq
  have hbytes : key.name.bytes = key'.name.bytes := by
    rw [← hname, ← hname', heq]
  obtain ⟨hmem, hparent⟩ := Directory.mem_children.mp hkey
  obtain ⟨hmem', hparent'⟩ := Directory.mem_children.mp hkey'
  apply List.inj_on_of_nodup_map store.nodup hmem hmem'
  unfold Directory.Entry.path KeyName.folded
  rw [hparent, hparent', hbytes]

/-- Each layer that is read has the name that it is read by. -/
theorem map_name_of_map {store : Store fold} {names : List String} {layers : List Layer}
    (h : names.map (readOf lib store) = layers.map .ok) : layers.map Layer.name = names := by
  induction layers generalizing names with
  | nil => simpa using h.symm
  | cons layer layers ih =>
    cases names with
    | nil => simp at h
    | cons name names =>
      rw [List.map_cons, List.map_cons, List.cons.injEq] at h
      rw [List.map_cons, name_of_readOf h.1, ih h.2]

/-! ### What is listed -/

/-- The list is that of the layers of a store: one entry for each key that is not the base layer's,
which is what `read` returns for its name, and one for the base layer. -/
structure Lists (lower : String → String) (lib : SidLib) (store : Store fold) (l : List Layer) :
    Prop where
  each : ∀ key ∈ store.children (layersPath fold), ∀ name, utf8 name = key.name.bytes →
    lower name ≠ "base" → ∃ layer, l.filter (fun x => x.name = name) = [layer] ∧
      ∀ s : State fold, s.store = store → (exec keys (read lib name) s).1 = .ok layer
  base : l.filter (fun x => lower x.name = "base")
    = [{ name := "base", precedence := 0, enabled := true, owner := none, malformed := false }]
  only : ∀ layer ∈ l, lower layer.name ≠ "base" →
    ∃ key ∈ store.children (layersPath fold), utf8 layer.name = key.name.bytes
  /-- The highest precedence first, and then by the bytes of the lower-case name. -/
  sorted : l.Pairwise fun a b => b.precedence < a.precedence ∨
    b.precedence = a.precedence ∧ utf8 (lower a.name) ≤ utf8 (lower b.name)

section

variable {store : Store fold} {layers : List Layer}

theorem isBase_baseLayer (hlower : lower BASE = BASE) : isBase lower baseLayer.name = true :=
  decide_eq_true hlower

/-- The entries that `p` accepts are those of the layers that were read, but for the base layer, and
of the base layer. -/
theorem perm_filter_sorted (lower : String → String) (layers : List Layer) (p : Layer → Bool) :
    (((unsorted lower layers).insertionSort (Layer.Before lower)).filter p).Perm
      (layers.filter (fun x => p x && decide (¬ isBase lower x.name = true)) ++
        [baseLayer].filter p) := by
  have hperm := (List.perm_insertionSort (Layer.Before lower) (unsorted lower layers)).filter p
  unfold unsorted at hperm ⊢
  rwa [List.filter_append, List.filter_filter] at hperm

/-- There is one entry of the name of a layer that was read. -/
theorem filter_name_sorted (hlower : lower BASE = BASE) (hnodup : (layers.map Layer.name).Nodup)
    {layer : Layer} (hlayer : layer ∈ layers) (hnot : isBase lower layer.name = false) :
    ((unsorted lower layers).insertionSort (Layer.Before lower)).filter
      (fun x => x.name = layer.name) = [layer] := by
  apply List.perm_singleton.mp
  have hperm := perm_filter_sorted lower layers fun x => x.name = layer.name
  have hothers : layers.filter (fun x => decide (x.name = layer.name) &&
      decide (¬ isBase lower x.name = true)) = [layer] := by
    rw [← Labels.filter_eq_singleton hnodup hlayer]
    apply List.filter_congr
    intro x _
    by_cases hx : x.name = layer.name
    · simp [hx, hnot]
    · simp [hx]
  have hnone : [baseLayer].filter (fun x => x.name = layer.name) = [] := by
    apply List.filter_eq_nil_iff.mpr
    intro x hx heq
    obtain rfl := List.mem_singleton.mp hx
    rw [← of_decide_eq_true heq, isBase_baseLayer hlower] at hnot
    cases hnot
  rwa [hothers, hnone, List.append_nil] at hperm

/-- There is one entry of the base layer. -/
theorem filter_base_sorted (hlower : lower BASE = BASE) (layers : List Layer) :
    ((unsorted lower layers).insertionSort (Layer.Before lower)).filter
      (fun x => isBase lower x.name) = [baseLayer] := by
  apply List.perm_singleton.mp
  have hperm := perm_filter_sorted lower layers fun x => isBase lower x.name
  have hothers : layers.filter (fun x => isBase lower x.name &&
      decide (¬ isBase lower x.name = true)) = [] := by
    apply List.filter_eq_nil_iff.mpr
    intro x _
    simp
  have hself : [baseLayer].filter (fun x => isBase lower x.name) = [baseLayer] := by
    simp [isBase_baseLayer hlower]
  rwa [hothers, hself, List.nil_append] at hperm

theorem lists_of_read (hlower : lower BASE = BASE) (hutf8 : Utf8Names store)
    (hread : (spelledNames store).map (readOf lib store) = layers.map .ok) :
    Lists lower lib store ((unsorted lower layers).insertionSort (Layer.Before lower)) := by
  have hnames := map_name_of_map hread
  have hnodup : (layers.map Layer.name).Nodup := hnames ▸ nodup_spelledNames hutf8
  constructor
  · intro key hkey name hname hnot
    -- the layer that was read by this name
    have hspelled : name ∈ layers.map Layer.name := by
      rw [hnames]
      apply List.mem_map.mpr
      exact ⟨key, hkey, by rw [← hname, fromUtf8Lossy_utf8]⟩
    obtain ⟨layer, hlayer, rfl⟩ := List.mem_map.mp hspelled
    refine ⟨layer, filter_name_sorted hlower hnodup hlayer (isBase_eq_false.mpr hnot), ?_⟩
    intro s hs
    have hok : (.ok layer : Outcome Layer) ∈ (spelledNames store).map (readOf lib store) := by
      rw [hread]
      exact List.mem_map_of_mem hlayer
    obtain ⟨name, -, hname⟩ := List.mem_map.mp hok
    rw [(exec_read lib layer.name s).1, hs, name_of_readOf hname, hname]
  · exact filter_base_sorted hlower layers
  · intro layer hlayer hnot
    rcases List.mem_append.mp ((List.perm_insertionSort _ _).mem_iff.mp hlayer) with hmem | hmem
    · have hspelled : layer.name ∈ spelledNames store := by
        rw [← hnames]
        exact List.mem_map_of_mem (List.mem_filter.mp hmem).1
      obtain ⟨key, hkey, hname⟩ := List.mem_map.mp hspelled
      obtain ⟨name, hbytes⟩ := hutf8 key hkey
      refine ⟨key, hkey, ?_⟩
      rw [← hname, ← hbytes, fromUtf8Lossy_utf8]
    · obtain rfl := List.mem_singleton.mp hmem
      exact absurd (isBase_eq_true.mp (isBase_baseLayer hlower)) hnot
  · exact List.pairwise_insertionSort (Layer.Before lower) _

end

/-- **`list` is complete, without duplicates and in order**: whether or not there is a key for the
base layer, and also when there are no keys. -/
theorem list_complete {rounds : Nat} {l : List Layer} (hlower : lower BASE = BASE)
    (hutf8 : Utf8Names s.store) (hlist : (exec keys (list lower lib rounds) s).1 = .ok l) :
    Lists lower lib s.store l := by
  obtain ⟨-, -, layers, hlayers, rfl⟩ := (meets_list lower lib rounds s).of_ok hlist
  exact lists_of_read hlower hutf8 (mapM_eq_ok.mp hlayers)

/-! ### Errors -/

/-- Why a key cannot be asked for a value.  That there is none is no reason. -/
def valueError (key : KeyBody) (value : String) : Option Errno :=
  match key.values (utf8 value) with
  | .ok _ => none
  | .error e => if e = ENOENT then none else some e

/-- Why a key cannot be read as a layer: it refuses to be opened, or to be asked for a value. -/
def queryError (key : KeyBody) : Option Errno :=
  (key.refuses KeyAccess.QUERY_VALUE).or
    ((valueError key "Precedence").or ((valueError key "Enabled").or (valueError key "Owner")))

/-- Why there is no layer to read by a name. -/
def readError (store : Store fold) (name : String) : Option Errno :=
  if 0 ∈ utf8 name then some EINVAL
  else
    match store.find? (namedPath fold name) with
    | none => some ENOENT
    | some e => queryError e.value

/-- The error of the first of the layers' keys that cannot be read, in the order of enumeration. -/
def firstError (store : Store fold) : Option Errno :=
  (spelledNames store).findSome? (readError store)

theorem failsWith_valueOf (key : KeyBody) (value : String) :
    FailsWith (valueOf key value) (valueError key value) := by
  unfold valueOf valueError
  rcases key.values (utf8 value) with e | item
  · dsimp only
    split_ifs
    · exact ⟨none, rfl⟩
    · rfl
  · exact ⟨_, rfl⟩

/-- An owner is made of whatever there is. -/
theorem failsWith_ownerOf (lib : SidLib) (d : Option Data) : FailsWith (ownerOf lib d) none := by
  rcases d with _ | d
  · exact ⟨_, rfl⟩
  · cases d with
    | binary b =>
      rcases hsid : SidRef.fromBytes lib b with _ | sid
      · exact ⟨(none, true), by simp [ownerOf, hsid, pure, Except.pure]⟩
      · obtain ⟨owned, howned, -⟩ := Sid.fromRef_spec sid
        exact ⟨(some owned, false), by simp [ownerOf, hsid, howned, pure, Except.pure]⟩
    | _ => exact ⟨(none, true), rfl⟩

theorem failsWith_layerOf (lib : SidLib) (name : String) (key : KeyBody) :
    FailsWith (layerOf lib name key)
      ((valueError key "Precedence").or ((valueError key "Enabled").or (valueError key "Owner"))) := by
  have howner : ∀ p e, FailsWith (valueOf key "Owner" >>= fun o => ownerOf lib o >>= fun owner =>
      pure (Layer.mk name (precedenceOf p).1 (enabledOf e).1 owner.1
        ((precedenceOf p).2 || (enabledOf e).2 || owner.2))) (valueError key "Owner") := by
    intro p e
    rw [← Option.or_none (o := valueError key "Owner")]
    apply (failsWith_valueOf key "Owner").bind
    intro o
    show FailsWith _ (Option.or none none)
    exact (failsWith_ownerOf lib o).bind fun owner => ⟨_, rfl⟩
  unfold layerOf
  exact (failsWith_valueOf key "Precedence").bind fun p =>
    (failsWith_valueOf key "Enabled").bind fun e => howner p e

/-- Reading a layer fails with what `readError` says. -/
theorem failsWith_readOf (lib : SidLib) (store : Store fold) (name : String) :
    FailsWith (readOf lib store name) (readError store name) := by
  unfold readOf readError queryError
  split_ifs
  · rfl
  · rcases store.find? (namedPath fold name) with _ | e
    · rfl
    · dsimp only
      rcases e.value.refuses KeyAccess.QUERY_VALUE with _ | errno
      · exact failsWith_layerOf lib name e.value
      · rfl

/-- Reading all layers fails with the first error. -/
theorem failsWith_mapM_readOf (lib : SidLib) (store : Store fold) :
    FailsWith ((spelledNames store).mapM (readOf lib store)) (firstError store) :=
  FailsWith.mapM (failsWith_readOf lib store) (spelledNames store)

/-! ### What `list` returns -/

/-- What `list` returns, errors included, when there are rounds enough. -/
def listOf (lower : String → String) (lib : SidLib) (store : Store fold) : Outcome (List Layer) :=
  match layersRefusal store with
  | some e => .error (.errno e)
  | none => do
    let layers ← (spelledNames store).mapM (readOf lib store)
    return (unsorted lower layers).insertionSort (Layer.Before lower)

/-- There are rounds enough to enumerate the layers' keys, whose indices fit a `u32`. -/
def EnoughRounds (rounds : Nat) (store : Store fold) : Prop :=
  (store.children (layersPath fold)).length < rounds ∧
    (store.children (layersPath fold)).length < 2 ^ 32

/-- **`list` returns what the store says.** -/
theorem exec_list {rounds : Nat} (lower : String → String) (lib : SidLib)
    (hrounds : EnoughRounds rounds s.store) :
    (exec keys (list lower lib rounds) s).1 = listOf lower lib s.store := by
  unfold listOf
  rcases (meets_list lower lib rounds s).ends with ⟨l, s', hexec, -, hrefusal, layers, hread, rfl⟩ |
    ⟨f, s', hexec, hfault⟩
  · rw [hexec, hrefusal]
    dsimp only
    rw [hread]
    rfl
  · rw [hexec]
    rcases hfault with ⟨e, hrefusal, rfl⟩ | ⟨hrefusal, hread⟩ | ⟨-, hfew⟩ | ⟨-, hmany⟩
    · rw [hrefusal]
    · rw [hrefusal]
      dsimp only
      rw [hread]
      rfl
    · exact absurd hrounds.1 (by omega)
    · exact absurd hrounds.2 (by omega)

/-- Listing fails with what keeps the keys from being enumerated, or else with the first error. -/
theorem failsWith_listOf (lower : String → String) (lib : SidLib) (store : Store fold) :
    FailsWith (listOf lower lib store) ((layersRefusal store).or (firstError store)) := by
  have hread := failsWith_mapM_readOf lib store
  unfold listOf
  rcases layersRefusal store with _ | e
  · show FailsWith _ (firstError store)
    rw [← Option.or_none (o := firstError store)]
    exact hread.bind fun layers => ⟨_, rfl⟩
  · rfl

/-! ### Stores that differ in the base layer's key -/

/-- The two stores have the same keys but for that of the base layer and those under it. -/
def AlikeButBase (store store' : Store fold) : Prop :=
  store.entries.filter (fun e => ¬ layerPath fold BASE <+: e.path (KeyName.folded fold))
    = store'.entries.filter (fun e => ¬ layerPath fold BASE <+: e.path (KeyName.folded fold))

/-- `is_base` takes a key for that of the base layer as the registry does, by its name and by the
name it is read by. -/
def TellsName (fold : Bytes → Bytes) (lower : String → String) (name : Bytes) : Prop :=
  (isBase lower (fromUtf8Lossy name) = true ↔ fold name = fold (utf8 BASE)) ∧
  (isBase lower (fromUtf8Lossy name) = true ↔
    layerPath fold BASE <+: namedPath fold (fromUtf8Lossy name))

instance (name : Bytes) : Decidable (TellsName fold lower name) :=
  inferInstanceAs (Decidable (_ ∧ _))

/-- `is_base` tells the base layer's key from the others as the registry does. -/
def TellsBase (lower : String → String) (store : Store fold) : Prop :=
  ∀ key ∈ store.children (layersPath fold), TellsName fold lower key.name.bytes

section

variable {store store' : Store fold}

/-- What is found elsewhere is the same in both. -/
theorem AlikeButBase.find? (h : AlikeButBase store store') {q : List Bytes}
    (hq : ¬ layerPath fold BASE <+: q) : store.find? q = store'.find? q := by
  -- looking for `q` never meets the keys that may differ
  have hfilter : ∀ d : Store fold, d.find? q = (d.entries.filter fun e =>
      ¬ layerPath fold BASE <+: e.path (KeyName.folded fold)).find?
        fun e => e.path (KeyName.folded fold) = q := by
    intro d
    rw [List.find?_filter]
    unfold Directory.find?
    congr 1
    funext e
    by_cases he : e.path (KeyName.folded fold) = q
    · simp [he, hq]
    · simp [he]
  rw [hfilter, hfilter, h]

theorem not_prefix_layersPath : ¬ layerPath fold BASE <+: layersPath fold := by
  intro h
  have hlen := h.length_le
  unfold layerPath at hlen
  rw [List.length_append, List.length_singleton] at hlen
  omega

theorem AlikeButBase.layersRefusal (h : AlikeButBase store store') :
    layersRefusal store = layersRefusal store' := by
  unfold Layers.layersRefusal
  rw [h.find? not_prefix_layersPath]

/-- The names of the other layers, as `list` spells them. -/
theorem otherNames (htells : TellsBase lower store) :
    (spelledNames store).filter (fun name => ¬ isBase lower name) =
      ((store.entries.filter fun e => ¬ layerPath fold BASE <+: e.path (KeyName.folded fold)).filter
        fun e => e.parent = layersPath fold).map fun e => fromUtf8Lossy e.name.bytes := by
  unfold spelledNames Directory.children
  rw [List.filter_map, List.filter_filter, List.filter_filter]
  congr 1
  apply List.filter_congr
  intro e he
  by_cases hparent : e.parent = layersPath fold
  · obtain ⟨hname, -⟩ := htells e (Directory.mem_children.mpr ⟨he, hparent⟩)
    have hpath : layerPath fold BASE <+: e.path (KeyName.folded fold) ↔
        fold e.name.bytes = fold (utf8 BASE) := by
      unfold layerPath Directory.Entry.path
      rw [hparent, List.prefix_append_right_inj]
      constructor
      · rintro ⟨t, ht⟩
        exact (List.cons.inj ht).1.symm
      · intro heq
        rw [KeyName.folded, heq]
    simp [hparent, hpath, ← hname]
  · simp [hparent]

theorem AlikeButBase.otherNames (h : AlikeButBase store store') (htells : TellsBase lower store)
    (htells' : TellsBase lower store') :
    (spelledNames store).filter (fun name => ¬ isBase lower name)
      = (spelledNames store').filter (fun name => ¬ isBase lower name) := by
  rw [Layers.otherNames htells, Layers.otherNames htells', h]

/-- The path that another layer is read by does not lead to the base layer's key. -/
theorem TellsBase.elsewhere (htells : TellsBase lower store) {name : String}
    (hname : name ∈ (spelledNames store).filter fun name => ¬ isBase lower name) :
    ¬ layerPath fold BASE <+: namedPath fold name := by
  obtain ⟨hmem, hnot⟩ := List.mem_filter.mp hname
  obtain ⟨key, hkey, rfl⟩ := List.mem_map.mp hmem
  intro h
  exact of_decide_eq_true hnot ((htells key hkey).2.mpr h)

/-- The other layers are read alike. -/
theorem AlikeButBase.readOf (h : AlikeButBase store store') {name : String}
    (hname : ¬ layerPath fold BASE <+: namedPath fold name) :
    readOf lib store name = readOf lib store' name := by
  unfold Layers.readOf
  rw [h.find? hname]

/-- The layers that are not the base layer were read by the names that are not its name. -/
theorem map_readOf_filter {names : List String} {layers : List Layer}
    (hread : names.map (Layers.readOf lib store) = layers.map .ok) :
    (names.filter fun name => ¬ isBase lower name).map (Layers.readOf lib store)
      = (layers.filter fun layer => ¬ isBase lower layer.name).map .ok := by
  induction layers generalizing names with
  | nil =>
    obtain rfl : names = [] := by simpa using hread
    rfl
  | cons layer layers ih =>
    cases names with
    | nil => simp at hread
    | cons name names =>
      rw [List.map_cons, List.map_cons, List.cons.injEq] at hread
      obtain rfl := name_of_readOf hread.1
      have hrest := ih hread.2
      rcases hbase : isBase lower layer.name with _ | _
      · simpa [hbase, hread.1] using hrest
      · simpa [hbase] using hrest

/-- When all keys can be read, the two stores are listed alike. -/
theorem AlikeButBase.unsorted (h : AlikeButBase store store') (htells : TellsBase lower store)
    (htells' : TellsBase lower store') {layers layers' : List Layer}
    (hread : (spelledNames store).map (Layers.readOf lib store) = layers.map .ok)
    (hread' : (spelledNames store').map (Layers.readOf lib store') = layers'.map .ok) :
    unsorted lower layers = unsorted lower layers' := by
  have hothers : ((spelledNames store).filter fun name => ¬ isBase lower name).map
        (Layers.readOf lib store)
      = ((spelledNames store).filter fun name => ¬ isBase lower name).map
        (Layers.readOf lib store') := by
    apply List.map_congr_left
    intro name hname
    exact h.readOf (htells.elsewhere hname)
  rw [map_readOf_filter hread, h.otherNames htells htells', map_readOf_filter hread'] at hothers
  unfold Layers.unsorted
  rw [List.map_injective_iff.mpr (fun _ _ => Except.ok.inj) hothers]

/-- Stores that fail alike are listed alike. -/
theorem AlikeButBase.listOf (h : AlikeButBase store store') (htells : TellsBase lower store)
    (htells' : TellsBase lower store') (hfirst : firstError store = firstError store') :
    listOf lower lib store = listOf lower lib store' := by
  have hread := failsWith_mapM_readOf lib store
  have hread' := failsWith_mapM_readOf lib store'
  rw [← hfirst] at hread'
  unfold Layers.listOf
  rw [h.layersRefusal]
  rcases Layers.layersRefusal store' with _ | e
  · dsimp only
    rcases herror : firstError store with _ | e
    · rw [herror] at hread hread'
      obtain ⟨layers, hlayers⟩ := hread
      obtain ⟨layers', hlayers'⟩ := hread'
      rw [hlayers, hlayers', ok_bind, ok_bind,
        h.unsorted htells htells' (mapM_eq_ok.mp hlayers) (mapM_eq_ok.mp hlayers')]
    · rw [herror] at hread hread'
      rw [hread.eq_error, hread'.eq_error]
  · rfl

end

/-- **The base layer's key has no influence on `list`** exactly when the first of the layers' keys
that cannot be read, if there is one, fails alike in both states; it may be the base layer's. -/
theorem list_congr_iff {s' : State fold} {rounds : Nat} (lib : SidLib)
    (halike : AlikeButBase s.store s'.store) (htells : TellsBase lower s.store)
    (htells' : TellsBase lower s'.store) (hrounds : EnoughRounds rounds s.store)
    (hrounds' : EnoughRounds rounds s'.store) :
    (exec keys (list lower lib rounds) s).1 = (exec keys (list lower lib rounds) s').1 ↔
      layersRefusal s.store ≠ none ∨ firstError s.store = firstError s'.store := by
  rw [exec_list lower lib hrounds, exec_list lower lib hrounds']
  constructor
  · intro heq
    have hfails := failsWith_listOf lower lib s.store
    have hfails' := failsWith_listOf lower lib s'.store
    rw [← heq, ← halike.layersRefusal] at hfails'
    have hor := hfails.unique hfails'
    rcases hrefusal : layersRefusal s.store with _ | e
    · rw [hrefusal] at hor
      exact .inr hor
    · exact .inl (Option.some_ne_none e)
  · rintro (hrefusal | hfirst)
    · obtain ⟨e, he⟩ := Option.ne_none_iff_exists'.mp hrefusal
      unfold listOf
      rw [← halike.layersRefusal, he]
    · exact halike.listOf htells htells' hfirst

/-! ### A registry with a key for the base layer -/

/-- The registry with one layer, and a key for the base layer. -/
def withBase (key : KeyBody) : State asciiFold where
  store := darkState.store.insert (layersPath asciiFold)
    (show IsKeyName (utf8 "Base") by decide).keyName key
  objects := []

/-- What holds of all the names holds of the name of each key. -/
theorem forall_children {store : Store fold} {names : List Bytes} {p : Bytes → Prop}
    (hnames : (store.children (layersPath fold)).map (fun e => e.name.bytes) = names)
    (hp : ∀ name ∈ names, p name) : ∀ key ∈ store.children (layersPath fold), p key.name.bytes := by
  intro key hkey
  exact hp _ (hnames ▸ List.mem_map_of_mem hkey)

theorem children_withBase :
    ((withBase .new).store.children (layersPath asciiFold)).map (fun e => e.name.bytes)
      = [utf8 "Dark", utf8 "Base"] := by
  decide +kernel

theorem children_darkState :
    (darkState.store.children (layersPath asciiFold)).map (fun e => e.name.bytes)
      = [utf8 "Dark"] := by
  decide +kernel

theorem utf8Names_withBase : Utf8Names (withBase .new).store := by
  apply forall_children (p := IsUtf8) children_withBase
  intro name hname
  rw [List.mem_pair] at hname
  rcases hname with rfl | rfl
  · exact ⟨"Dark", rfl⟩
  · exact ⟨"Base", rfl⟩

theorem list_complete_withBase :
    Lists asciiLower sidLayout (withBase .new).store [baseLayer, darkLayer "Dark"] := by
  have hlist : (exec keys (list asciiLower sidLayout 3) (withBase .new)).1
      = .ok [baseLayer, darkLayer "Dark"] := by
    decide +kernel
  exact list_complete (by decide) utf8Names_withBase hlist

/-- A key for the base layer, added to what is there, is all that changes. -/
theorem alikeButBase_insert (store : Store fold) {name : KeyName}
    (hname : fold name.bytes = fold (utf8 BASE)) (key : KeyBody) :
    AlikeButBase (store.insert (layersPath fold) name key) store := by
  by_cases hinsert : store.find? (layersPath fold ++ [name.folded fold]) = none ∧
      store.Has (layersPath fold)
  · have hbase : layerPath fold BASE <+:
        (⟨layersPath fold, name, key⟩ : Directory.Entry KeyName Bytes KeyBody).path
          (KeyName.folded fold) := by
      unfold layerPath Directory.Entry.path
      rw [KeyName.folded, hname]
    unfold AlikeButBase
    rw [Directory.entries_insert hinsert.1 hinsert.2, List.filter_append,
      List.filter_cons_of_neg (by simpa using hbase), List.filter_nil, List.append_nil]
  · have hsame : store.insert (layersPath fold) name key = store := dif_neg hinsert
    rw [hsame]
    rfl

theorem alikeButBase_withBase (key : KeyBody) :
    AlikeButBase (withBase key).store darkState.store :=
  alikeButBase_insert _ (by decide) key

/-- With a base key that can be read, the list is what it is without one. -/
theorem list_congr_withBase :
    (exec keys (list asciiLower sidLayout 3) (withBase .new)).1
      = (exec keys (list asciiLower sidLayout 3) darkState).1 := by
  have htells : TellsBase asciiLower (withBase .new).store := by
    apply forall_children (p := TellsName asciiFold asciiLower) children_withBase
    decide +kernel
  have htells' : TellsBase asciiLower darkState.store := by
    apply forall_children (p := TellsName asciiFold asciiLower) children_darkState
    decide +kernel
  have hrounds : EnoughRounds 3 (withBase .new).store := by
    unfold EnoughRounds
    decide +kernel
  have hrounds' : EnoughRounds 3 darkState.store := by
    unfold EnoughRounds
    decide +kernel
  exact (list_congr_iff sidLayout (alikeButBase_withBase .new) htells htells' hrounds
    hrounds').mpr (.inr (by decide +kernel))

/-- A key whose descriptor refuses to open it, with `EACCES`. -/
def lockedKey : KeyBody :=
  { KeyBody.new with refuses := fun _ => some 13, refuses_ne := fun _ => by decide }

/-- With one that cannot be opened, there is no list. -/
theorem not_list_congr_locked :
    AlikeButBase (withBase lockedKey).store darkState.store ∧
    (exec keys (list asciiLower sidLayout 3) (withBase lockedKey)).1 = .error (.errno 13) ∧
    (exec keys (list asciiLower sidLayout 3) darkState).1
      = .ok [baseLayer, darkLayer "Dark"] :=
  ⟨alikeButBase_withBase lockedKey, by decide +kernel, by decide +kernel⟩

end Peios.Registry.Layers
