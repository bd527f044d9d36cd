import Peios.Registry.Equiv.Data
import Peios.Registry.Equiv.DeleteTree
import Peios.Registry.Equiv.LayerCreate

/-!
# Reading one layer and listing them

Neither `read` nor `list` changes a store, and what they return depends on nothing else: `read`
returns `readOf` the store (`exec_read`), and `list` what `readOf` says for the name of each key,
with the base layer as it always is (`list_ok`).

`read` trusts the name that it is given and the key of the base layer.  `read_agrees_iff` says for
which names it returns what the list has.
-/

namespace Peios.Registry.Layers

open Interaction Prog ByteString Security Store

variable {fold : Bytes → Bytes} {lib : SidLib} {lower : String → String} {name : String}
  {s : State fold}

/-! ### Reading a layer -/

/-- The key that the path of a layer leads to. -/
def namedPath (fold : Bytes → Bytes) (name : String) : List Bytes :=
  layersPath fold ++ (Hive.components (utf8 name)).map fold

theorem namedPath_eq (hname : IsComponent name) : namedPath fold name = layerPath fold name := by
  unfold namedPath
  rw [hname.components]
  rfl

theorem map_components_layer (fold : Bytes → Bytes) (name : String) :
    (Hive.components (utf8 (LAYERS ++ "\\" ++ name))).map fold = namedPath fold name := by
  rw [components_layer, List.map_append, ← layersPath_eq]
  rfl

/-- Opening a layer's key. -/
theorem keys_openLayer (h0 : 0 ∉ utf8 name) (access : UInt32) :
    keys (.open none (LAYERS ++ "\\" ++ name) access noFlags) s =
      match s.store.find? (namedPath fold name) with
      | none => (.error ENOENT, s)
      | some e =>
        match e.value.refuses access with
        | some errno => (.error errno, s)
        | none => (.ok s.objects.length, s.push (.key (namedPath fold name))) := by
  have hpath : 0 ∉ utf8 (LAYERS ++ "\\" ++ name) := mt zero_mem_layer.mp h0
  have hopen : keys (.open none (LAYERS ++ "\\" ++ name) access noFlags) s = _ := keys_open hpath
  rw [map_components_layer] at hopen
  exact hopen

/-- Nothing is opened by a name with a NUL. -/
theorem keys_openLayer_nul (h0 : 0 ∈ utf8 name) (access : UInt32) :
    keys (.open none (LAYERS ++ "\\" ++ name) access noFlags) s = (.error EINVAL, s) :=
  keys_open_nul (zero_mem_layer.mpr h0) _

/-- What `read` takes a value of a key for. -/
def valueOf (key : KeyBody) (value : String) : Outcome (Option Data) :=
  match key.values (utf8 value) with
  | .ok item => .ok (some (Data.decode (regValue item).ty (regValue item).data))
  | .error e => if e = ENOENT then .ok none else .error (.errno e)

/-- The layer that a key says it is. -/
def layerOf (lib : SidLib) (name : String) (key : KeyBody) : Outcome Layer := do
  let precedence ← valueOf key "Precedence"
  let enabled ← valueOf key "Enabled"
  let owner ← ownerOf lib (← valueOf key "Owner")
  return {
    name
    precedence := (precedenceOf precedence).1
    enabled := (enabledOf enabled).1
    owner := owner.1
    malformed := (precedenceOf precedence).2 || (enabledOf enabled).2 || owner.2 }

/-- What `read` returns. -/
def readOf (lib : SidLib) (store : Store fold) (name : String) : Outcome Layer :=
  if 0 ∈ utf8 name then .error (.errno EINVAL)
  else
    match store.find? (namedPath fold name) with
    | none => .error (.errno ENOENT)
    | some e =>
      match e.value.refuses KeyAccess.QUERY_VALUE with
      | some errno => .error (.errno errno)
      | none => layerOf lib name e.value

variable {fd : Fd} {key : List Bytes} {e : Directory.Entry KeyName Bytes KeyBody}

theorem exec_queryValue (hkey : s.path fd = some key) (he : s.store.find? key = some e)
    {value : String} (hvalue : (utf8 value).length < 2 ^ 32) :
    exec keys (queryValue fd value) s = (valueOf e.value value, s) := by
  unfold queryValue valueOf
  rw [exec_bind_ok (exec_attempt _ _ _), keys_queryValue hkey he, bytesU32_of_lt hvalue]
  rcases e.value.values (utf8 value) with errno | item
  · show exec keys (if errno = ENOENT then pure none else KeyProg.err errno) s = _
    dsimp only
    split_ifs <;> rfl
  · rfl

/-- Once its key is open, a layer is what its values say. -/
theorem exec_read_of_open {s' : State fold}
    (hopen : exec keys (openLayer name KeyAccess.QUERY_VALUE) s = (.ok fd, s'))
    (hkey : s'.path fd = some key) (he : s'.store.find? key = some e) :
    exec keys (read lib name) s = (layerOf lib name e.value, s') := by
  unfold read layerOf
  rw [exec_bind_ok hopen]
  have hvalue : ∀ value, (utf8 value).length < 2 ^ 32 →
      exec keys (queryValue fd value) s' = (valueOf e.value value, s') :=
    fun value => exec_queryValue hkey he
  -- a read that fails ends both sides alike
  rw [exec_bind, hvalue "Precedence" (by decide)]
  rcases valueOf e.value "Precedence" with fault | precedence
  · rfl
  rw [ok_bind]
  dsimp only
  rw [exec_bind, hvalue "Enabled" (by decide)]
  rcases valueOf e.value "Enabled" with fault | enabled
  · rfl
  rw [ok_bind]
  dsimp only
  rw [exec_bind, hvalue "Owner" (by decide)]
  rcases valueOf e.value "Owner" with fault | owner
  · rfl
  rw [ok_bind]
  dsimp only
  rw [exec_bind]
  rcases ownerOf lib owner with fault | owner
  · rfl
  · rfl

/-- **Reading changes nothing**, and what it returns depends on the store. -/
theorem exec_read (lib : SidLib) (name : String) (s : State fold) :
    (exec keys (read lib name) s).1 = readOf lib s.store name ∧
      (exec keys (read lib name) s).2.store = s.store := by
  have hopen : exec keys (openLayer name KeyAccess.QUERY_VALUE) s
      = (ofResult (keys (.open none (LAYERS ++ "\\" ++ name) KeyAccess.QUERY_VALUE noFlags) s).1,
        (keys (.open none (LAYERS ++ "\\" ++ name) KeyAccess.QUERY_VALUE noFlags) s).2) :=
    exec_ask _ _ _
  unfold readOf
  split_ifs with h0
  · rw [keys_openLayer_nul h0] at hopen
    rw [read, exec_bind_error hopen]
    exact ⟨rfl, rfl⟩
  rw [keys_openLayer h0] at hopen
  rcases he : s.store.find? (namedPath fold name) with _ | e
  · rw [he] at hopen
    rw [read, exec_bind_error hopen]
    exact ⟨rfl, rfl⟩
  rw [he] at hopen
  dsimp only at hopen ⊢
  rcases hrefuses : e.value.refuses KeyAccess.QUERY_VALUE with _ | errno
  · rw [hrefuses] at hopen
    rw [exec_read_of_open hopen (path_push_self _ _) he]
    exact ⟨rfl, rfl⟩
  · rw [hrefuses] at hopen
    rw [read, exec_bind_error hopen]
    exact ⟨rfl, rfl⟩

/-! ### Listing layers -/

/-- The names of the layers with a key, as `list` spells them. -/
def spelledNames (store : Store fold) : List String :=
  (store.children (layersPath fold)).map fun e => fromUtf8Lossy e.name.bytes

/-- Why the keys of the layers cannot be enumerated, if there are any. -/
def layersRefusal (store : Store fold) : Option Errno :=
  (store.find? (layersPath fold)).bind fun e => e.value.refuses KeyAccess.ENUMERATE_SUB_KEYS

/-- Enumerating `n` keys takes more rounds, or a larger index. -/
def OutOfRounds (rounds n : Nat) (f : Fault) : Prop :=
  (f = .fuel ∧ rounds ≤ n) ∨ (f = .panic ∧ 2 ^ 32 ≤ n)

theorem layersPath_ne_nil : layersPath fold ≠ [] :=
  List.append_ne_nil_of_right_ne_nil _ (List.cons_ne_nil _ _)

/-- Enumerating the keys of the layers. -/
theorem meets_collectLayers (hkey : s.path fd = some key) (he : s.store.find? key = some e)
    (rounds : Nat) :
    Meets keys ((Key.subkeys fd none).collectNames rounds []) s
      (fun names s' => s' = s ∧ names = (s.store.children key).map fun e => e.name.bytes)
      (OutOfRounds rounds (s.store.children key).length) := by
  -- the store does not change while it is enumerated
  have hsubkeys : ∀ index, keys (.enumSubkey fd index none) s
      = (.ok ((s.store.children key).map subkey)[index.toNat]?, s) := by
    intro index
    rw [keys_enumSubkey hkey he, List.getElem?_map]
  have hmeets := meets_collectNames_of hsubkeys rounds 0 [] (Nat.zero_le _)
  rw [List.length_map] at hmeets
  apply Meets.mono hmeets
  · rintro names s' ⟨rfl, rfl⟩
    refine ⟨rfl, ?_⟩
    rw [List.nil_append, List.map_drop, List.map_map]
    rfl
  · exact fun _ h => h

/-- Collecting the names changes nothing. -/
theorem meets_layerNames (rounds : Nat) (s : State fold) :
    Meets keys (layerNames rounds) s
      (fun names s' => s'.store = s.store ∧ layersRefusal s.store = none ∧
        names = spelledNames s.store)
      (fun f => (∃ e, layersRefusal s.store = some e ∧ f = .errno e) ∨
        OutOfRounds rounds (s.store.children (layersPath fold)).length f) := by
  have hopen : keys (.open none LAYERS KeyAccess.ENUMERATE_SUB_KEYS noFlags) s =
      match s.store.find? (layersPath fold) with
      | none => (.error ENOENT, s)
      | some e =>
        match e.value.refuses KeyAccess.ENUMERATE_SUB_KEYS with
        | some errno => (.error errno, s)
        | none => (.ok s.objects.length, s.push (.key (layersPath fold))) := by
    rw [keys_open (by decide), layersPath_eq]
    rfl
  unfold layerNames Meets layersRefusal
  rw [exec_bind_ok (exec_attempt _ _ _), hopen]
  rcases hfind : s.store.find? (layersPath fold) with _ | e
  · -- no layers
    have hnone : s.store.children (layersPath fold) = [] :=
      Directory.children_of_find?_eq_none layersPath_ne_nil hfind
    have hnames : spelledNames s.store = [] := by
      unfold spelledNames
      rw [hnone, List.map_nil]
    exact ⟨rfl, rfl, hnames.symm⟩
  · dsimp only [Option.bind_some]
    rcases hrefuses : e.value.refuses KeyAccess.ENUMERATE_SUB_KEYS with _ | errno
    · have hcollect := meets_collectLayers (path_push_self s (layersPath fold)) hfind rounds
      apply Meets.bind (hcollect.mono (fun _ _ h => h) fun _ h => .inr h)
      rintro names s' ⟨rfl, rfl⟩
      refine .pure ⟨rfl, rfl, ?_⟩
      rw [List.map_map]
      rfl
    · -- a refusal is not taken for there being no layers
      dsimp only
      have hne : errno ≠ ENOENT := by
        rintro rfl
        exact e.value.refuses_ne _ hrefuses
      rw [if_neg hne]
      exact .inl ⟨errno, rfl, rfl⟩

/-- Reading one layer after another changes nothing. -/
theorem exec_mapM_read (lib : SidLib) (names : List String) (s : State fold) :
    (exec keys (names.mapM (read lib)) s).1 = names.mapM (readOf lib s.store) ∧
      (exec keys (names.mapM (read lib)) s).2.store = s.store := by
  induction names generalizing s with
  | nil => exact ⟨rfl, rfl⟩
  | cons name names ih =>
    obtain ⟨hresult, hstore⟩ := exec_read lib name s
    rw [List.mapM_cons, List.mapM_cons, ← hresult, ← hstore, exec_bind]
    rcases exec keys (read lib name) s with ⟨fault | layer, s₁⟩
    · exact ⟨rfl, rfl⟩
    dsimp only
    obtain ⟨hresult, hstore⟩ := ih s₁
    rw [ok_bind, ← hresult, ← hstore, exec_bind]
    rcases exec keys (names.mapM (read lib)) s₁ with ⟨fault | layers, s₂⟩
    · exact ⟨rfl, rfl⟩
    · exact ⟨rfl, rfl⟩

/-- The layers of a list, before they are sorted. -/
def unsorted (lower : String → String) (layers : List Layer) : List Layer :=
  layers.filter (fun layer => ¬ isBase lower layer.name) ++ [baseLayer]

/-- Listing changes nothing, and what it returns depends on the store. -/
theorem meets_list (lower : String → String) (lib : SidLib) (rounds : Nat) (s : State fold) :
    Meets keys (list lower lib rounds) s
      (fun l s' => s'.store = s.store ∧ layersRefusal s.store = none ∧
        ∃ layers, (spelledNames s.store).mapM (readOf lib s.store) = .ok layers ∧
          l = (unsorted lower layers).insertionSort (Layer.Before lower))
      (fun f => (∃ e, layersRefusal s.store = some e ∧ f = .errno e) ∨
        (layersRefusal s.store = none ∧
          (spelledNames s.store).mapM (readOf lib s.store) = .error f) ∨
        OutOfRounds rounds (s.store.children (layersPath fold)).length f) := by
  unfold list
  apply Meets.bind ((meets_layerNames rounds s).mono (fun _ _ h => h) fun f h => h.imp_right .inr)
  rintro names s₁ ⟨hs₁, hrefusal, rfl⟩
  obtain ⟨hresult, hstore⟩ := exec_mapM_read lib (spelledNames s.store) s₁
  rw [hs₁] at hresult hstore
  unfold Meets
  rw [exec_bind]
  rcases hexec : exec keys ((spelledNames s.store).mapM (read lib)) s₁ with ⟨fault | layers, s₂⟩
  · rw [hexec] at hresult
    exact .inr (.inl ⟨hrefusal, hresult.symm⟩)
  · rw [hexec] at hresult hstore
    exact ⟨hstore, hrefusal, layers, hresult.symm, rfl⟩

/-- **What `list` returns**: the layer that each key describes, but for the base layer. -/
theorem mem_list {rounds : Nat} {l : List Layer}
    (hlist : (exec keys (list lower lib rounds) s).1 = .ok l) :
    (∀ spelled ∈ spelledNames s.store, ∃ layer, readOf lib s.store spelled = .ok layer) ∧
    ∀ layer, layer ∈ l ↔
      layer = baseLayer ∨ isBase lower layer.name = false ∧
        ∃ spelled ∈ spelledNames s.store, readOf lib s.store spelled = .ok layer := by
  obtain ⟨-, -, layers, hlayers, rfl⟩ := (meets_list lower lib rounds s).of_ok hlist
  -- the list is made only if every key can be read
  have hmap := mapM_eq_ok.mp hlayers
  have hmem : ∀ layer, layer ∈ layers ↔
      ∃ spelled ∈ spelledNames s.store, readOf lib s.store spelled = .ok layer := by
    intro layer
    rw [← List.mem_map, hmap, List.mem_map_of_injective fun _ _ => Except.ok.inj]
  constructor
  · intro spelled hspelled
    have hread := List.mem_map_of_mem hspelled (f := readOf lib s.store)
    rw [hmap] at hread
    obtain ⟨layer, -, hlayer⟩ := List.mem_map.mp hread
    exact ⟨layer, hlayer.symm⟩
  · intro layer
    unfold unsorted
    rw [List.mem_insertionSort, List.mem_append, List.mem_filter, List.mem_singleton, hmem,
      decide_eq_true_eq, Bool.not_eq_true, or_comm, and_comm]

/-! ### Values -/

theorem decode_eq_dword {ty : ValueType} {b : Bytes} {n : UInt32} :
    Data.decode ty b = .dword n ↔ ty = .DWORD ∧ b = leBytes 4 n.toNat := by
  constructor
  · intro h
    have hdecoded := decoded ty b
    rw [h] at hdecoded
    cases hdecoded with
    | dword hlen =>
      rw [toNat_ofNat_ofLeBytes hlen, ← hlen, leBytes_ofLeBytes]
      exact ⟨rfl, rfl⟩
  · rintro ⟨rfl, rfl⟩
    exact decode_encode_of_canonical (d := .dword n) trivial

theorem decode_eq_binary {ty : ValueType} {b c : Bytes} :
    Data.decode ty b = .binary c ↔ ty = .BINARY ∧ b = c := by
  constructor
  · intro h
    have hdecoded := decoded ty b
    rw [h] at hdecoded
    cases hdecoded
    exact ⟨rfl, rfl⟩
  · rintro ⟨rfl, rfl⟩
    rfl

variable {key : KeyBody} {value : String} {n : UInt32}

theorem valueOf_eq_none : valueOf key value = .ok none ↔ key.values (utf8 value) = .error ENOENT := by
  unfold valueOf
  rcases key.values (utf8 value) with e | item
  · dsimp only
    split_ifs with he
    · exact iff_of_true rfl (congrArg Except.error he)
    · simp [he]
  · simp

theorem valueOf_eq_some {d : Data} :
    valueOf key value = .ok (some d) ↔
      ∃ item, key.values (utf8 value) = .ok item ∧
        Data.decode (regValue item).ty (regValue item).data = d := by
  unfold valueOf
  rcases key.values (utf8 value) with e | item
  · dsimp only
    split_ifs <;> simp
  · simp

theorem holdsValue_iff {name : Bytes} {ty : ValueType} {data : Bytes} :
    HoldsValue key name ty data ↔
      ∃ item, key.values name = .ok item ∧ item.fields.ty = ty ∧ item.bytes 0 = data := by
  constructor
  · rintro ⟨item, hitem, htype, hdata⟩
    exact ⟨item, hitem, htype, hdata⟩
  · rintro ⟨item, hitem, htype, hdata⟩
    exact .intro item hitem htype hdata

/-- A value that is read as a `REG_DWORD` is held as one. -/
theorem valueOf_eq_dword :
    valueOf key value = .ok (some (.dword n)) ↔
      HoldsValue key (utf8 value) .DWORD (leBytes 4 n.toNat) := by
  rw [valueOf_eq_some, holdsValue_iff]
  exact exists_congr fun item => and_congr_right fun _ => decode_eq_dword

/-- So is one that is read as `REG_BINARY`. -/
theorem valueOf_eq_binary {b : Bytes} :
    valueOf key value = .ok (some (.binary b)) ↔ HoldsValue key (utf8 value) .BINARY b := by
  rw [valueOf_eq_some, holdsValue_iff]
  exact exists_congr fun item => and_congr_right fun _ => decode_eq_binary

/-! ### The key of the base layer -/

/-- A key holds nothing else than what the base layer is whatever its key holds. -/
structure HoldsBase (key : KeyBody) : Prop where
  precedence : key.values (utf8 "Precedence") = .error ENOENT ∨
    HoldsValue key (utf8 "Precedence") .DWORD (leBytes 4 0)
  enabled : key.values (utf8 "Enabled") = .error ENOENT ∨
    HoldsValue key (utf8 "Enabled") .DWORD (leBytes 4 1)
  owner : key.values (utf8 "Owner") = .error ENOENT

theorem precedenceOf_eq {d : Option Data} {n : UInt32} :
    precedenceOf d = (n, false) ↔ (d = none ∧ n = 0) ∨ d = some (.dword n) := by
  rcases d with _ | d
  · simp [precedenceOf, eq_comm]
  · cases d <;> simp [precedenceOf]

theorem enabledOf_eq {d : Option Data} {b : Bool} :
    enabledOf d = (b, false) ↔
      (d = none ∧ b = true) ∨ d = some (.dword (if b then 1 else 0)) := by
  rcases d with _ | d
  · simp [enabledOf, eq_comm]
  · cases d with
    | dword n =>
      by_cases h0 : n = 0
      · subst h0
        cases b <;> simp [enabledOf]
      · by_cases h1 : n = 1
        · subst h1
          cases b <;> simp [enabledOf]
        · cases b <;> simp [enabledOf, h0, h1]
    | _ => simp [enabledOf]

/-- No owner is read only where there is none. -/
theorem ownerOf_eq_none {d : Option Data} : ownerOf lib d = .ok (none, false) ↔ d = none := by
  rcases d with _ | d
  · simp [ownerOf, pure, Except.pure]
  · cases d with
    | binary b =>
      rcases hsid : SidRef.fromBytes lib b with _ | sid
      · simp [ownerOf, hsid, pure, Except.pure]
      · obtain ⟨owned, howned, -⟩ := Sid.fromRef_spec sid
        simp [ownerOf, hsid, howned, pure, Except.pure]
    | _ => simp [ownerOf, pure, Except.pure]

/-- A layer is read when each of its values is. -/
theorem layerOf_ok {layer : Layer} (h : layerOf lib name key = .ok layer) :
    ∃ p e o owner, valueOf key "Precedence" = .ok p ∧ valueOf key "Enabled" = .ok e ∧
      valueOf key "Owner" = .ok o ∧ ownerOf lib o = .ok owner ∧
      layer = {
        name
        precedence := (precedenceOf p).1
        enabled := (enabledOf e).1
        owner := owner.1
        malformed := (precedenceOf p).2 || (enabledOf e).2 || owner.2 } := by
  unfold layerOf at h
  simp only [bind_eq_ok] at h
  obtain ⟨p, hp, e, he, o, ho, owner, howner, hlayer⟩ := h
  exact ⟨p, e, o, owner, hp, he, ho, howner, (Except.ok.inj hlayer).symm⟩

/-- It is well formed when each of them is. -/
theorem layerOf_eq_ok {precedence : UInt32} {enabled : Bool} {owner : Option Sid} :
    layerOf lib name key = .ok { name, precedence, enabled, owner, malformed := false } ↔
      (∃ d, valueOf key "Precedence" = .ok d ∧ precedenceOf d = (precedence, false)) ∧
      (∃ d, valueOf key "Enabled" = .ok d ∧ enabledOf d = (enabled, false)) ∧
      ∃ d, valueOf key "Owner" = .ok d ∧ ownerOf lib d = .ok (owner, false) := by
  constructor
  · intro h
    obtain ⟨p, e, o, sid, hp, he, ho, hsid, hlayer⟩ := layerOf_ok h
    obtain ⟨-, hprecedence, henabled, howner, hmalformed⟩ := Layer.mk.inj hlayer
    have hmalformed := hmalformed.symm
    rw [Bool.or_eq_false_iff, Bool.or_eq_false_iff] at hmalformed
    obtain ⟨⟨hmalformed₁, hmalformed₂⟩, hmalformed₃⟩ := hmalformed
    have hsid' : sid = (owner, false) := Prod.ext howner.symm hmalformed₃
    exact ⟨⟨p, hp, Prod.ext hprecedence.symm hmalformed₁⟩,
      ⟨e, he, Prod.ext henabled.symm hmalformed₂⟩, ⟨o, ho, hsid.trans (congrArg _ hsid')⟩⟩
  · rintro ⟨⟨p, hp, hprecedence⟩, ⟨e, he, henabled⟩, ⟨o, ho, howner⟩⟩
    unfold layerOf
    rw [hp, he, ho]
    simp only [ok_bind, howner, hprecedence, henabled]
    rfl

/-- **The key of the base layer is read as what the list has** only if it says no more. -/
theorem layerOf_eq_baseLayer : layerOf lib BASE key = .ok baseLayer ↔ HoldsBase key := by
  have hprecedence : (∃ d, valueOf key "Precedence" = .ok d ∧ precedenceOf d = (0, false)) ↔
      key.values (utf8 "Precedence") = .error ENOENT ∨
        HoldsValue key (utf8 "Precedence") .DWORD (leBytes 4 0) := by
    have hdword : valueOf key "Precedence" = .ok (some (.dword 0)) ↔
      HoldsValue key (utf8 "Precedence") .DWORD (leBytes 4 0) := valueOf_eq_dword
    rw [← valueOf_eq_none, ← hdword]
    simp [precedenceOf_eq, and_or_left, exists_or]
  have henabled : (∃ d, valueOf key "Enabled" = .ok d ∧ enabledOf d = (true, false)) ↔
      key.values (utf8 "Enabled") = .error ENOENT ∨
        HoldsValue key (utf8 "Enabled") .DWORD (leBytes 4 1) := by
    have hdword : valueOf key "Enabled" = .ok (some (.dword 1)) ↔
      HoldsValue key (utf8 "Enabled") .DWORD (leBytes 4 1) := valueOf_eq_dword
    rw [← valueOf_eq_none, ← hdword]
    simp [enabledOf_eq, and_or_left, exists_or]
  have howner : (∃ d, valueOf key "Owner" = .ok d ∧ ownerOf lib d = .ok (none, false)) ↔
      key.values (utf8 "Owner") = .error ENOENT := by
    rw [← valueOf_eq_none]
    simp [ownerOf_eq_none]
  have hlayer : layerOf lib BASE key = .ok baseLayer ↔ _ := layerOf_eq_ok
  rw [hlayer, hprecedence, henabled, howner]
  exact ⟨fun ⟨h₁, h₂, h₃⟩ => ⟨h₁, h₂, h₃⟩, fun h => ⟨h.precedence, h.enabled, h.owner⟩⟩

/-! ### Agreement -/

variable {store : Store fold} {layer : Layer}

theorem name_of_layerOf (h : layerOf lib name key = .ok layer) : layer.name = name := by
  obtain ⟨_, _, _, _, -, -, -, -, rfl⟩ := layerOf_ok h
  rfl

/-- When reading a layer succeeds. -/
theorem readOf_eq_ok :
    readOf lib store name = .ok layer ↔ 0 ∉ utf8 name ∧
      ∃ e, store.find? (namedPath fold name) = some e ∧
        e.value.refuses KeyAccess.QUERY_VALUE = none ∧ layerOf lib name e.value = .ok layer := by
  unfold readOf
  split_ifs with h0
  · simp [h0]
  rcases store.find? (namedPath fold name) with _ | e
  · simp
  dsimp only
  rcases hrefuses : e.value.refuses KeyAccess.QUERY_VALUE with _ | errno
  · simp [h0, hrefuses]
  · simp [hrefuses]

/-- A layer that is read has the name it was asked for by. -/
theorem name_of_readOf (h : readOf lib store name = .ok layer) : layer.name = name := by
  obtain ⟨-, e, -, -, hlayer⟩ := readOf_eq_ok.mp h
  exact name_of_layerOf hlayer

/-- The name of a layer that is there: the base layer always is. -/
def NamesLayer (lower : String → String) (store : Store fold) (name : String) : Prop :=
  isBase lower name ∨
    ∃ key ∈ store.children (layersPath fold), fold key.name.bytes = fold (utf8 name)

/-- A layer in the list is that of the name: the base layer, or the one whose key has that name, as
the key spells it. -/
def EntryFor (lower : String → String) (store : Store fold) (name : String) (layer : Layer) :
    Prop :=
  if isBase lower name then layer.name = BASE
  else ∃ key ∈ store.children (layersPath fold),
    fold key.name.bytes = fold (utf8 name) ∧ utf8 layer.name = key.name.bytes

/-- `read` succeeds with what the list has for the name. -/
def ReadAgrees (lower : String → String) (lib : SidLib) (l : List Layer) (name : String)
    (s : State fold) : Prop :=
  ∃ layer ∈ l, EntryFor lower s.store name layer ∧ (exec keys (read lib name) s).1 = .ok layer

/-- The name is what the list has for the layer: for the base layer the name `BASE`, and its key
says of it what is always so; for any other what its key is called. -/
def NamedAsListed (lower : String → String) (store : Store fold) (name : String) : Prop :=
  if isBase lower name then
    name = BASE ∧ ∃ key, store.find? (layerPath fold BASE) = some key ∧
      key.value.refuses KeyAccess.QUERY_VALUE = none ∧ HoldsBase key.value
  else ∃ key ∈ store.children (layersPath fold), key.name.bytes = utf8 name

theorem isComponent_BASE : IsComponent BASE where
  ne_empty := by decide
  no_backslash := by decide
  no_slash := by decide

theorem readOf_BASE :
    readOf lib store BASE = .ok baseLayer ↔ ∃ key, store.find? (layerPath fold BASE) = some key ∧
      key.value.refuses KeyAccess.QUERY_VALUE = none ∧ HoldsBase key.value := by
  rw [readOf_eq_ok, namedPath_eq isComponent_BASE]
  have h0 : 0 ∉ utf8 BASE := by decide
  constructor
  · rintro ⟨-, e, he, hrefuses, hlayer⟩
    exact ⟨e, he, hrefuses, layerOf_eq_baseLayer.mp hlayer⟩
  · rintro ⟨e, he, hrefuses, hholds⟩
    exact ⟨h0, e, he, hrefuses, layerOf_eq_baseLayer.mpr hholds⟩

/-- **`read` returns what `list` has** exactly for the names that the list has, and for `BASE` only
if its key says no more. -/
theorem read_agrees_iff {rounds : Nat} {l : List Layer} {s' : State fold}
    (hlower : lower BASE = BASE) (hlist : (exec keys (list lower lib rounds) s).1 = .ok l)
    (hs : s'.store = s.store) (name : String) :
    ReadAgrees lower lib l name s' ↔ NamedAsListed lower s.store name := by
  obtain ⟨hreads, hmem⟩ := mem_list hlist
  have hread : (exec keys (read lib name) s').1 = readOf lib s.store name := by
    rw [(exec_read lib name s').1, hs]
  have hbase : isBase lower BASE = true := decide_eq_true hlower
  unfold ReadAgrees NamedAsListed EntryFor
  rw [hread, hs]
  split_ifs with hname
  · constructor
    · rintro ⟨layer, hlayer, hnameBase, hok⟩
      have hlayerName := name_of_readOf hok
      obtain rfl : name = BASE := hlayerName.symm.trans hnameBase
      -- no key stands for the base layer in the list
      rcases (hmem layer).mp hlayer with rfl | ⟨hnot, -⟩
      · exact ⟨rfl, readOf_BASE.mp hok⟩
      · rw [hlayerName, hbase] at hnot
        cases hnot
    · rintro ⟨rfl, hkey⟩
      exact ⟨baseLayer, (hmem _).mpr (.inl rfl), rfl, readOf_BASE.mpr hkey⟩
  · constructor
    · rintro ⟨layer, -, ⟨key, hkey, -, hspelled⟩, hok⟩
      rw [name_of_readOf hok] at hspelled
      exact ⟨key, hkey, hspelled.symm⟩
    · -- the list was made by reading this very name
      rintro ⟨key, hkey, hspelled⟩
      have hnames : name ∈ spelledNames s.store := by
        apply List.mem_map.mpr
        refine ⟨key, hkey, ?_⟩
        rw [hspelled, fromUtf8Lossy_utf8]
      obtain ⟨layer, hok⟩ := hreads name hnames
      have hlayer := name_of_readOf hok
      refine ⟨layer, (hmem _).mpr (.inr ⟨?_, name, hnames, hok⟩), ⟨key, hkey, ?_, ?_⟩, hok⟩
      · rw [hlayer]
        simpa using hname
      · rw [hspelled]
      · rw [hlayer, hspelled]

/-! ### A registry with one layer -/

/-- ASCII letters in lower case. -/
def asciiFold (b : Bytes) : Bytes := b.map fun x => if 0x41 ≤ x ∧ x ≤ 0x5a then x + 0x20 else x

/-- SIDs by their layout: a revision, a count, an authority of six bytes, and that many
sub-authorities of four. -/
def sidLayout : SidLib where
  maxBytes := 68
  valid b := b.length ≤ 68 ∧ b[0]? = some 1 ∧ b.length = 8 + 4 * (b[1]?.getD 0).toNat
  length_le := fun _ h => (of_decide_eq_true h).1
  maxBytes_lt := by decide

/-- A registry with the keys that are always there. -/
def systemStore : Store asciiFold :=
  (Directory.empty.insert [] (show IsKeyName (utf8 "Machine") by decide).keyName .new).insert
    [asciiFold (utf8 "Machine")] (show IsKeyName (utf8 "System") by decide).keyName .new

/-- In it, one layer, with no values. -/
def darkState : State asciiFold where
  store := (withAbove systemStore).insert (layersPath asciiFold)
    (show IsKeyName (utf8 "Dark") by decide).keyName .new
  objects := []

/-- What is read of that layer. -/
def darkLayer (name : String) : Layer :=
  { name, precedence := 0, enabled := true, owner := none, malformed := false }

theorem read_agrees_dark :
    ReadAgrees asciiLower sidLayout [baseLayer, darkLayer "Dark"] "Dark" darkState := by
  have hlist : (exec keys (list asciiLower sidLayout 2) darkState).1
      = .ok [baseLayer, darkLayer "Dark"] := by
    decide +kernel
  apply (read_agrees_iff (by decide) hlist rfl "Dark").mpr
  unfold NamedAsListed
  rw [if_neg (by decide)]
  decide +kernel

/-- Under another spelling `read` returns what the list does not have, and there is no key of the
base layer to read. -/
theorem not_read_agrees_respelled :
    ∃ l, (exec keys (list asciiLower sidLayout 2) darkState).1 = .ok l ∧
      (NamesLayer asciiLower darkState.store "dark" ∧
        ¬ ReadAgrees asciiLower sidLayout l "dark" darkState) ∧
      (NamesLayer asciiLower darkState.store "base" ∧
        ¬ ReadAgrees asciiLower sidLayout l "base" darkState) := by
  refine ⟨[baseLayer, darkLayer "Dark"], by decide +kernel, ⟨.inr (by decide +kernel), ?_⟩,
    .inl (by decide), ?_⟩
  · rintro ⟨layer, hlayer, -, hread⟩
    have hdark : (exec keys (read sidLayout "dark") darkState).1 = .ok (darkLayer "dark") := by
      decide +kernel
    obtain rfl := Except.ok.inj (hdark.symm.trans hread)
    exact absurd hlayer (by decide)
  · rintro ⟨layer, -, -, hread⟩
    have hbase : (exec keys (read sidLayout "base") darkState).1 = .error (.errno ENOENT) := by
      decide +kernel
    exact nomatch hbase.symm.trans hread

end Peios.Registry.Layers
