import Peios.Interaction.Handler
import Peios.Registry.Equiv.Layers
import Peios.Registry.Store

/-!
# `create` is all or nothing

`create` is `prepare`, which works in a transaction, and then the commit (`create_eq`).  Whoever
answers, `prepare` does not commit (`callsOnly_prepare`), and ends with `EEXIST` when the layer's
key turns out to be there already (`error_of_findsLayer`).

Against a `Store` any of whose calls may be made to fail, what `prepare` does leaves the store as it
is (`store_of_enlisted`), and when it succeeds its transaction holds the changes that
`CreatesLayer` describes (`meets_prepare`).  `create_allOrNothing` puts them together.
-/

namespace Peios.Registry

open Interaction Prog ByteString

/-! ### Stores whose calls may fail -/

namespace Store

variable {fold : Bytes → Bytes}

/-- The registry when the `n`-th call of a method fails as `outcome n` says. -/
def faultyKeys (outcome : Nat → Option Errno) : Handler KeyCall KeyReply (Nat × State fold) :=
  .faulty (fun _ e => .error e) outcome keys

variable {outcome : Nat → Option Errno} {α : Type} {n : Nat} {s : State fold} {c : KeyCall}
  {post : α → Nat × State fold → Prop}

/-- A program goes on only after a call that succeeds. -/
theorem meets_ask {f : c.Value → KeyProg α}
    (h : ∀ v s', keys c s = (.ok v, s') →
      Meets (faultyKeys outcome) (f v) (n + 1, s') post fun _ => True) :
    Meets (faultyKeys outcome) (c.ask >>= f) (n, s) post fun _ => True := by
  rcases ho : outcome n with _ | e
  · rcases hc : keys c s with ⟨e | v, s'⟩
    · have hfaulty : faultyKeys outcome c (n, s) = (.error e, n + 1, s') := by
        rw [faultyKeys, Handler.faulty_of_none ho, hc]
      exact meets_ask_error hfaulty trivial
    · have hfaulty : faultyKeys outcome c (n, s) = (.ok v, n + 1, s') := by
        rw [faultyKeys, Handler.faulty_of_none ho, hc]
      exact meets_ask_ok hfaulty (h v s' hc)
  · have hfaulty : faultyKeys outcome c (n, s) = (.error e, n + 1, s) :=
      Handler.faulty_of_some ho c
    exact meets_ask_error hfaulty trivial

/-- So does one that ends with it. -/
theorem meets_call {post : c.Value → Nat × State fold → Prop}
    (h : ∀ v s', keys c s = (.ok v, s') → post v (n + 1, s')) :
    Meets (faultyKeys outcome) c.ask (n, s) post fun _ => True := by
  rw [← bind_pure c.ask]
  exact meets_ask fun v s' hcall => .pure (h v s' hcall)

/-- A program that looks at what a call returned goes on after either. -/
theorem meets_attempt {f : Except Errno c.Value → KeyProg α}
    (hok : ∀ v s', keys c s = (.ok v, s') →
      Meets (faultyKeys outcome) (f (.ok v)) (n + 1, s') post fun _ => True)
    (herror : ∀ e s', s' = s ∨ keys c s = (.error e, s') →
      Meets (faultyKeys outcome) (f (.error e)) (n + 1, s') post fun _ => True) :
    Meets (faultyKeys outcome) (c.attempt >>= f) (n, s) post fun _ => True := by
  have hexec : exec (faultyKeys outcome) c.attempt (n, s)
      = (.ok (faultyKeys outcome c (n, s)).1, (faultyKeys outcome c (n, s)).2) := exec_attempt _ c _
  unfold Meets
  rw [exec_bind_ok hexec]
  rcases ho : outcome n with _ | e
  · rw [faultyKeys, Handler.faulty_of_none ho]
    rcases hc : keys c s with ⟨e | v, s'⟩
    · exact herror e s' (.inr hc)
    · exact hok v s' hc
  · rw [faultyKeys, Handler.faulty_of_some ho]
    exact herror e s (.inl rfl)

/-! ### Calls in a transaction -/

/-- A call that does not change the store: it opens a key, or is in a transaction. -/
def Enlisted : KeyCall → Prop
  | .begin => True
  | .open .. => True
  | .create _ _ _ _ _ txn => txn.isSome
  | .setValue v => v.txn.isSome
  | _ => False

theorem mutate_store (c : Change) (t : Fd) : (s.mutate c (some t)).store = s.store := by
  unfold State.mutate
  dsimp only
  split <;> rfl

theorem openKey_store (parent : Option Fd) (path : Bytes) (access : UInt32) :
    (s.openKey parent path access).2.store = s.store := by
  unfold State.openKey
  split
  · rfl
  · split
    · rfl
    · split <;> rfl

theorem createKey_store (parent : Option Fd) (path : Bytes) (access : UInt32)
    (layer : Option CString) (t : Fd) :
    (s.createKey parent path access layer (some t)).2.store = s.store := by
  unfold State.createKey
  split
  · split
    · split <;> rfl
    · split
      · rfl
      · exact mutate_store _ _
  · rfl

theorem setValue_store (key : Fd) (name : Bytes) (ty : ValueType) (data : Bytes)
    (layer : Option Bytes) (t : Fd) (expectedSeq : UInt64) :
    (s.setValue key name ty data layer (some t) expectedSeq).2.store = s.store := by
  unfold State.setValue onKey
  split_ifs
  · rfl
  · split
    · split
      · rfl
      · exact mutate_store _ _
    · rfl

/-- **Such a call leaves the store as it is.** -/
theorem keys_store (hc : Enlisted c) (s : State fold) : (keys c s).2.store = s.store := by
  cases c with
  | begin => rfl
  | «open» parent path access flags =>
    show ((Key.open parent path access flags).run registry s).2.store = _
    unfold Key.open
    rcases CString.new path with e | cpath
    · rfl
    · exact openKey_store _ _ _
  | create parent path access flags layer txn =>
    -- a transaction keeps the change beside the store
    obtain ⟨t, rfl⟩ := Option.isSome_iff_exists.mp hc
    show ((Key.create parent path access flags layer (some t)).run registry s).2.store = _
    unfold Key.create
    rcases CString.new path with e | cpath
    · rfl
    · rcases CString.newOption layer with e | clayer
      · rfl
      · exact createKey_store _ _ _ _ _
  | setValue v =>
    obtain ⟨t, ht⟩ := Option.isSome_iff_exists.mp hc
    show (v.call.run registry s).2.store = _
    unfold SetValue.call
    rw [ht]
    rcases CString.newOption v.layer with e | clayer
    · rfl
    · exact setValue_store _ _ _ _ _ _ _
  | _ => exact absurd hc id

/-- A program of such calls leaves it as it is, whichever of them fail. -/
theorem store_of_enlisted {p : KeyProg α} (hp : CallsOnly Enlisted p) (u : Nat × State fold) :
    (exec (faultyKeys outcome) p u).2.2.store = u.2.store := by
  refine run_invariant_of_trace (P := Enlisted) (fun u' => u'.2.store = u.2.store) ?_ p.run
    (hp _ _ (Path.run _ _ u)) rfl
  rintro c ⟨n, s⟩ hc hs
  rcases ho : outcome n with _ | e
  · rw [faultyKeys, Handler.faulty_of_none ho]
    exact (keys_store hc s).trans hs
  · rw [faultyKeys, Handler.faulty_of_some ho]
    exact hs

/-- A path from the root that opens leads to a key. -/
theorem open_ok {name : String} {access flags : UInt32} {fd : Fd} {s' : State fold}
    (hcall : keys (.open none name access flags) s = (.ok fd, s')) :
    s'.path fd = some ((Hive.components (utf8 name)).map fold) ∧
    (∃ o, s' = s.push o) ∧ ∃ e, s.store.find? ((Hive.components (utf8 name)).map fold) = some e := by
  have h0 : 0 ∉ utf8 name := by
    intro h0
    rw [keys_open_nul h0] at hcall
    cases hcall
  rw [keys_open h0] at hcall
  split at hcall
  · cases hcall
  · rename_i e he
    split at hcall
    · cases hcall
    · obtain ⟨hfd, rfl⟩ := Prod.mk.inj hcall
      obtain rfl := Except.ok.inj hfd
      exact ⟨path_push_self _ _, ⟨_, rfl⟩, e, he⟩

/-- An open that fails does nothing. -/
theorem open_error {name : String} {access flags : UInt32} {e : Errno} {s' : State fold}
    (hcall : keys (.open none name access flags) s = (.error e, s')) : s' = s := by
  by_cases h0 : 0 ∈ utf8 name
  · rw [keys_open_nul h0] at hcall
    exact (Prod.mk.inj hcall).2.symm
  · rw [keys_open h0] at hcall
    split at hcall
    · exact (Prod.mk.inj hcall).2.symm
    · split at hcall
      · exact (Prod.mk.inj hcall).2.symm
      · cases hcall

/-! ### What a transaction holds -/

/-- An open transaction holds these changes to the store. -/
structure InTxn (store : Store fold) (t : Fd) (changes : List Change) (s : State fold) : Prop where
  store : s.store = store
  txn : s.objects[t]? = some (.txn changes)

variable {store : Store fold} {t fd : Fd} {changes : List Change} {key : List Bytes}

theorem applyAll_concat (store : Store fold) (changes : List Change) (c : Change) :
    applyAll store (changes ++ [c]) = apply (applyAll store changes) c := by
  unfold applyAll
  rw [List.foldl_append]
  rfl

namespace InTxn

theorem push (h : InTxn store t changes s) (o : Object) : InTxn store t changes (s.push o) where
  store := h.store
  txn := getElem?_push h.txn o

theorem mutate_eq (h : InTxn store t changes s) (c : Change) :
    s.mutate c (some t) = { s with objects := s.objects.set t (.txn (changes ++ [c])) } := by
  unfold State.mutate
  dsimp only
  rw [h.txn]

theorem mutate (h : InTxn store t changes s) (c : Change) :
    InTxn store t (changes ++ [c]) (s.mutate c (some t)) where
  store := (mutate_store c t).trans h.store
  txn := by
    obtain ⟨ht, -⟩ := List.getElem?_eq_some_iff.mp h.txn
    rw [h.mutate_eq]
    exact List.getElem?_set_self ht

theorem length_mutate (h : InTxn store t changes s) (c : Change) :
    (s.mutate c (some t)).objects.length = s.objects.length := by
  rw [h.mutate_eq]
  exact List.length_set

/-- A change does not touch the handles of keys. -/
theorem path_mutate (h : InTxn store t changes s) (hkey : s.path fd = some key) (c : Change) :
    (s.mutate c (some t)).path fd = some key := by
  have hfd := path_eq_some.mp hkey
  -- the handle of a transaction is not that of a key
  have hne : t ≠ fd := by
    rintro rfl
    rw [h.txn] at hfd
    cases hfd
  apply path_eq_some.mpr
  rw [h.mutate_eq]
  show (s.objects.set t _)[fd]? = _
  rw [List.getElem?_set_ne hne, hfd]

variable {name : String} {access flags : UInt32} {v : Key × Disposition} {s' : State fold}

/-- Making a key finds it there, or adds it to the changes. -/
theorem create_ok (h : InTxn store t changes s) (hkey : s.path fd = some key)
    (hname : Hive.components (utf8 name) = [utf8 name])
    (hcall : keys (.create (some fd) name access flags none (some t)) s = (.ok v, s')) :
    s'.path v.1 = some (key ++ [fold (utf8 name)]) ∧
    ((v.2 = .openedExisting ∧ InTxn store t changes s' ∧
        ∃ e, (applyAll store changes).find? (key ++ [fold (utf8 name)]) = some e) ∨
      (v.2 = .createdNew ∧ ∃ made : KeyName, made.bytes = utf8 name ∧
        InTxn store t (changes ++ [.create key made]) s' ∧
        (applyAll store changes).find? (key ++ [fold (utf8 name)]) = none ∧
        (applyAll store changes).Has key)) := by
  have h0 : 0 ∉ utf8 name := by
    intro h0
    rw [keys_create_nul h0] at hcall
    cases hcall
  rw [keys_create h0 hname hkey h.txn, h.store] at hcall
  split at hcall
  · rename_i e he
    split at hcall
    · cases hcall
    · obtain ⟨rfl, rfl⟩ := Prod.mk.inj hcall |>.imp_left Except.ok.inj
      exact ⟨path_push_self _ _, .inl ⟨rfl, h.push _, e, he⟩⟩
  · rename_i hnone
    split at hcall
    · cases hcall
    · rename_i made hmade
      have hbytes : made.bytes = utf8 name := by
        unfold KeyName.ofBytes at hmade
        split_ifs at hmade
        obtain rfl := Option.some.inj hmade
        rfl
      split_ifs at hcall with hhas
      · obtain ⟨rfl, rfl⟩ := Prod.mk.inj hcall |>.imp_left Except.ok.inj
        refine ⟨?_, .inr ⟨rfl, made, hbytes, (h.mutate _).push _, hnone, hhas⟩⟩
        have hself := path_push_self (s.mutate (.create key made) (some t))
          (key ++ [fold (utf8 name)])
        rw [h.length_mutate] at hself
        exact hself
      · cases hcall

/-- Either way the key is then there. -/
theorem create_insert (h : InTxn store t changes s) (hkey : s.path fd = some key)
    {keyName : KeyName} (hbytes : utf8 name = keyName.bytes)
    (hcall : keys (.create (some fd) name access flags none (some t)) s = (.ok v, s')) :
    s'.path v.1 = some (key ++ [fold keyName.bytes]) ∧
    ∃ changes', InTxn store t changes' s' ∧
      applyAll store changes' = (applyAll store changes).insert key keyName .new := by
  have hname : Hive.components (utf8 name) = [utf8 name] := by
    rw [hbytes]
    exact Hive.components_name keyName
  -- what is there already is left as it is by an insertion
  obtain ⟨hpath, hcase⟩ := h.create_ok hkey hname hcall
  rw [hbytes] at hpath hcase
  refine ⟨hpath, ?_⟩
  rcases hcase with ⟨-, hs', e, he⟩ | ⟨-, made, hmade, hs', -, -⟩
  · exact ⟨changes, hs', (Directory.insert_of_find? he).symm⟩
  · obtain rfl : made = keyName := by
      cases made
      cases keyName
      cases hmade
      rfl
    exact ⟨_, hs', applyAll_concat _ _ _⟩

/-- Writing a value adds it to the changes. -/
theorem setValue_ok (h : InTxn store t changes s) (hkey : s.path fd = some key) {name : Bytes}
    {ty : ValueType} {data : Bytes}
    (hcall : keys (.setValue ((Key.setValue fd name ty data).inTxn t)) s = (.ok (), s')) :
    InTxn store t (changes ++ [.set key (bytesU32 name) ty (bytesU32 data)]) s' ∧
      s'.path fd = some key := by
  obtain rfl := keys_setValue_ok hkey hcall
  exact ⟨h.mutate _, h.path_mutate hkey _⟩

end InTxn

end Store

/-! ### What `create` should do -/

namespace Layers

open Store

variable (fold : Bytes → Bytes)

/-- `Registry`, the first of the keys that `create` makes on the way. -/
def registryName : KeyName :=
  (show IsKeyName (utf8 "Registry") by decide).keyName

/-- `Layers`, the second of them. -/
def layersName : KeyName :=
  (show IsKeyName (utf8 "Layers") by decide).keyName

/-- The key that is always there. -/
def systemPath : List Bytes := (Hive.components (utf8 LAYERS_FROM.1)).map fold

/-- The first of the keys on the way. -/
def registryPath : List Bytes := systemPath fold ++ [fold registryName.bytes]

/-- The second, under which each layer has a key. -/
def layersPath : List Bytes := registryPath fold ++ [fold layersName.bytes]

/-- The key of a layer. -/
def layerPath (name : String) : List Bytes := layersPath fold ++ [fold (utf8 name)]

/-- `LAYERS` leads to the second of these. -/
theorem layersPath_eq : layersPath fold = layersKey.map fold := by
  rw [← components_LAYERS_FROM, List.map_append, List.map_append]
  rfl

variable {fold}

/-- A key has a value of this type and data. -/
inductive HoldsValue (key : KeyBody) (name : Bytes) (ty : ValueType) (data : Bytes) : Prop where
  | intro (item : Item 2 ValueFields) : key.values name = .ok item → item.fields.ty = ty →
      item.bytes 0 = data → HoldsValue key name ty data

/-- A key has the two values that a new layer has, and no other. -/
structure HoldsNewLayer (key : KeyBody) (precedence : UInt32) (enabled : Bool) : Prop where
  precedence : HoldsValue key (utf8 "Precedence") .DWORD (leBytes 4 precedence.toNat)
  enabled : HoldsValue key (utf8 "Enabled") .DWORD (leBytes 4 enabled.toNat)
  others : ∀ name, name ≠ utf8 "Precedence" → name ≠ utf8 "Enabled" →
    key.values name = .error ENOENT
  /-- Nobody is refused. -/
  opens : ∀ access, key.refuses access = none

/-- **What `create` changes when it succeeds**: it makes the layer's key, and those above it that
are missing. -/
structure CreatesLayer (before after : Store fold) (name : String) (precedence : UInt32)
    (enabled : Bool) : Prop where
  absent : before.find? (layerPath fold name) = none
  layer : ∃ key, after.find? (layerPath fold name) = some key ∧ key.name.bytes = utf8 name ∧
    HoldsNewLayer key.value precedence enabled
  registry : after.find? (registryPath fold) = some ((before.find? (registryPath fold)).getD
    { parent := systemPath fold, name := registryName, value := .new })
  layers : after.find? (layersPath fold) = some ((before.find? (layersPath fold)).getD
    { parent := registryPath fold, name := layersName, value := .new })
  others : ∀ path, path ≠ registryPath fold → path ≠ layersPath fold → path ≠ layerPath fold name →
    after.find? path = before.find? path

/-! ### What a transaction of `create` makes -/

/-- The keys on the way, made where they are missing. -/
def withAbove (store : Store fold) : Store fold :=
  (store.insert (systemPath fold) registryName .new).insert (registryPath fold) layersName .new

theorem registryPath_ne_layersPath : registryPath fold ≠ layersPath fold := by
  intro h
  have hlen := congrArg List.length h
  unfold layersPath at hlen
  rw [List.length_append, List.length_singleton] at hlen
  omega

theorem layerPath_ne (fold : Bytes → Bytes) (name : String) :
    layerPath fold name ≠ layersPath fold ∧ layerPath fold name ≠ registryPath fold := by
  constructor
  · intro h
    have hlen := congrArg List.length h
    unfold layerPath at hlen
    rw [List.length_append, List.length_singleton] at hlen
    omega
  · intro h
    have hlen := congrArg List.length h
    unfold layerPath layersPath at hlen
    rw [List.length_append, List.length_append, List.length_singleton, List.length_singleton] at hlen
    omega

/-- Where there is a layers key, there is the key above it. -/
theorem find?_registryPath {store : Store fold} {e : Directory.Entry KeyName Bytes KeyBody}
    (h : store.find? (layersPath fold) = some e) :
    ∃ e', store.find? (registryPath fold) = some e' := by
  obtain hnil | ⟨e', he', hpath⟩ := Directory.has_of_find?_append h
  · have hne : registryPath fold ≠ [] := List.append_ne_nil_of_right_ne_nil _ (List.cons_ne_nil _ _)
    exact absurd hnil hne
  · refine ⟨e', ?_⟩
    rw [← hpath]
    exact Directory.find?_of_mem he'

/-- So is the one that is always there. -/
theorem has_systemPath {store : Store fold} {e : Directory.Entry KeyName Bytes KeyBody}
    (h : store.find? (layersPath fold) = some e) : store.Has (systemPath fold) := by
  obtain ⟨e', he'⟩ := find?_registryPath h
  exact Directory.has_of_find?_append he'

/-- And nothing is missing. -/
theorem withAbove_of_find? {store : Store fold} {e : Directory.Entry KeyName Bytes KeyBody}
    (h : store.find? (layersPath fold) = some e) : withAbove store = store := by
  obtain ⟨e', he'⟩ := find?_registryPath h
  unfold withAbove
  rw [Directory.insert_of_find? he']
  exact Directory.insert_of_find? h

/-- What is found after an insertion: the entry that was there, or the new one. -/
theorem find?_insert_self {store : Store fold} {parent : List Bytes} {name : KeyName}
    (hhas : store.Has parent) :
    (store.insert parent name .new).find? (parent ++ [fold name.bytes])
      = some ((store.find? (parent ++ [fold name.bytes])).getD
        { parent, name, value := .new }) := by
  rcases hfind : store.find? (parent ++ [fold name.bytes]) with _ | e
  · rw [Directory.find?_insert hfind hhas, if_pos rfl, Option.getD_none]
  · rw [Directory.insert_of_find? hfind, hfind, Option.getD_some]

theorem find?_insert_ne {store : Store fold} {parent path : List Bytes} {name : KeyName}
    (hhas : store.Has parent) (hne : path ≠ parent ++ [fold name.bytes]) :
    (store.insert parent name .new).find? path = store.find? path := by
  rcases hfind : store.find? (parent ++ [fold name.bytes]) with _ | e
  · rw [Directory.find?_insert hfind hhas, if_neg hne]
  · rw [Directory.insert_of_find? hfind]

theorem bytesU32_of_lt {b : Bytes} (h : b.length < 2 ^ 32) : bytesU32 b = b := by
  unfold bytesU32
  rw [Nat.mod_eq_of_lt h, List.take_length]

/-- A value that is written is held. -/
theorem holdsValue_write {key : KeyBody} {name : Bytes} {ty : ValueType} {data : Bytes}
    (h : data.length < 2 ^ 32) : HoldsValue (key.write name ty data) name ty data := by
  refine ⟨_, Function.update_self .., rfl, ?_⟩
  exact bytesU32_of_lt h

/-- Writing a value leaves the others as they are. -/
theorem values_write_ne {key : KeyBody} {name name' : Bytes} (hne : name' ≠ name) (ty : ValueType)
    (data : Bytes) : (key.write name ty data).values name' = key.values name' :=
  Function.update_of_ne hne _ _

theorem HoldsValue.write_ne {key : KeyBody} {name name' : Bytes} {ty ty' : ValueType}
    {data data' : Bytes} (h : HoldsValue key name' ty' data') (hne : name' ≠ name) :
    HoldsValue (key.write name ty data) name' ty' data' := by
  obtain ⟨item, hitem, htype, hdata⟩ := h
  exact ⟨item, (values_write_ne hne _ _).trans hitem, htype, hdata⟩

theorem precedence_ne_enabled : utf8 "Precedence" ≠ utf8 "Enabled" := by decide

/-- Both values of a new layer, written to a key. -/
def writeBoth (precedence : UInt32) (enabled : Bool) (key : KeyBody) : KeyBody :=
  .write (utf8 "Enabled") .DWORD (leBytes 4 enabled.toNat)
    (.write (utf8 "Precedence") .DWORD (leBytes 4 precedence.toNat) key)

/-- A new key to which both are written holds them. -/
theorem holdsNewLayer (precedence : UInt32) (enabled : Bool) :
    HoldsNewLayer (writeBoth precedence enabled .new) precedence enabled where
  precedence := by
    apply HoldsValue.write_ne _ precedence_ne_enabled
    apply holdsValue_write
    rw [length_leBytes]
    decide
  enabled := by
    apply holdsValue_write
    rw [length_leBytes]
    decide
  others := by
    intro name hprecedence henabled
    unfold writeBoth
    rw [values_write_ne henabled, values_write_ne hprecedence]
    rfl
  opens := fun _ => rfl

variable {store : Store fold} {name : String} {precedence : UInt32} {enabled : Bool}

/-- What `create` writes to the key of the new layer. -/
def writes (fold : Bytes → Bytes) (name : String) (precedence : UInt32) (enabled : Bool) :
    List Change :=
  [.set (layerPath fold name) (utf8 "Precedence") .DWORD (leBytes 4 precedence.toNat),
    .set (layerPath fold name) (utf8 "Enabled") .DWORD (leBytes 4 enabled.toNat)]

/-- Both values are written to the layer's key, and to no other. -/
theorem find?_writes (store : Store fold) (path : List Bytes) :
    (applyAll store (writes fold name precedence enabled)).find? path
      = if path = layerPath fold name then
          (store.find? path).map fun e => { e with value := writeBoth precedence enabled e.value }
        else store.find? path := by
  show Directory.find? (Directory.modify (Directory.modify store _ _) _ _) path = _
  rw [Directory.find?_modify, Directory.find?_modify]
  split_ifs
  · rw [Option.map_map]
    rfl
  · rfl

theorem has_insert_registry (hsystem : store.Has (systemPath fold)) :
    (store.insert (systemPath fold) registryName .new).Has (registryPath fold) :=
  Directory.has_of_find? (find?_insert_self hsystem)

/-- The keys on the way are then there. -/
theorem find?_withAbove_registryPath (hsystem : store.Has (systemPath fold)) :
    (withAbove store).find? (registryPath fold)
      = some ((store.find? (registryPath fold)).getD
        { parent := systemPath fold, name := registryName, value := .new }) := by
  unfold withAbove
  rw [find?_insert_ne (has_insert_registry hsystem) registryPath_ne_layersPath]
  exact find?_insert_self hsystem

theorem find?_withAbove_layersPath (hsystem : store.Has (systemPath fold)) :
    (withAbove store).find? (layersPath fold)
      = some ((store.find? (layersPath fold)).getD
        { parent := registryPath fold, name := layersName, value := .new }) := by
  have hself : (withAbove store).find? (layersPath fold)
      = some (((store.insert (systemPath fold) registryName .new).find? (layersPath fold)).getD
        { parent := registryPath fold, name := layersName, value := .new }) :=
    find?_insert_self (has_insert_registry hsystem)
  rw [hself, find?_insert_ne hsystem registryPath_ne_layersPath.symm]

/-- Nothing else has changed. -/
theorem find?_withAbove_ne (hsystem : store.Has (systemPath fold)) {path : List Bytes}
    (hregistry : path ≠ registryPath fold) (hlayers : path ≠ layersPath fold) :
    (withAbove store).find? path = store.find? path := by
  unfold withAbove
  rw [find?_insert_ne (has_insert_registry hsystem) hlayers, find?_insert_ne hsystem hregistry]

/-- **The changes of `create` make the layer.** -/
theorem createsLayer (hsystem : store.Has (systemPath fold)) {made : KeyName}
    (hmade : made.bytes = utf8 name)
    (hnone : (withAbove store).find? (layerPath fold name) = none) :
    CreatesLayer store
      (applyAll ((withAbove store).insert (layersPath fold) made .new)
        (writes fold name precedence enabled))
      name precedence enabled := by
  have hpath : layersPath fold ++ [fold made.bytes] = layerPath fold name := by
    rw [hmade]
    rfl
  have hlayers : (withAbove store).Has (layersPath fold) :=
    Directory.has_of_find? (find?_withAbove_layersPath hsystem)
  have hinsert : ∀ path, ((withAbove store).insert (layersPath fold) made .new).find? path
      = if path = layerPath fold name then
          some { parent := layersPath fold, name := made, value := .new }
        else (withAbove store).find? path := by
    intro path
    have hnone' : (withAbove store).find? (layersPath fold ++ [fold made.bytes]) = none := by
      rw [hpath, hnone]
    rw [Directory.find?_insert hnone' hlayers, ← hpath]
  -- the key of the layer is the only one that is made under them and written to
  have hkeep : ∀ path, path ≠ layerPath fold name →
      (applyAll ((withAbove store).insert (layersPath fold) made .new)
        (writes fold name precedence enabled)).find? path = (withAbove store).find? path := by
    intro path hne
    rw [find?_writes, if_neg hne, hinsert, if_neg hne]
  obtain ⟨hneLayers, hneRegistry⟩ := layerPath_ne fold name
  constructor
  · rw [← find?_withAbove_ne hsystem hneRegistry hneLayers, hnone]
  · refine ⟨{ parent := layersPath fold, name := made, value := writeBoth precedence enabled .new },
      ?_, hmade, holdsNewLayer precedence enabled⟩
    rw [find?_writes, if_pos rfl, hinsert, if_pos rfl]
    rfl
  · rw [hkeep _ hneRegistry.symm, find?_withAbove_registryPath hsystem]
  · rw [hkeep _ hneLayers.symm, find?_withAbove_layersPath hsystem]
  · intro path hpathRegistry hpathLayers hpathLayer
    rw [hkeep _ hpathLayer, find?_withAbove_ne hsystem hpathRegistry hpathLayers]

/-! ### The two halves of `create` -/

/-- The writes of `create`, to the key of the new layer. -/
def writeValues (txn : Transaction) (key : Key) (precedence : UInt32) (enabled : Bool) :
    KeyProg Unit := do
  (KeyCall.setValue ((key.setValue (utf8 "Precedence") .DWORD
    (leBytes 4 precedence.toNat)).inTxn txn)).ask
  (KeyCall.setValue ((key.setValue (utf8 "Enabled") .DWORD
    (leBytes 4 enabled.toNat)).inTxn txn)).ask

/-- `create` up to its commit. -/
def prepare (name : String) (precedence : UInt32) (enabled : Bool) : KeyProg Transaction := do
  let txn ← KeyCall.begin.ask
  let layers ← openLayers txn
  let (key, made) ← (KeyCall.create (some layers) name KeyAccess.SET_VALUE noFlags none
    (some txn)).ask
  if made = .openedExisting then KeyProg.err EEXIST
  else
    writeValues txn key precedence enabled
    return txn

variable {lower : String → String}

/-- On a layer's name, `create` prepares a transaction and commits it. -/
theorem create_eq (hname : IsLayerName lower name) :
    create lower name precedence enabled
      = prepare name precedence enabled >>= fun txn => (KeyCall.commit txn).ask := by
  unfold create prepare writeValues
  rw [if_neg ((guard_iff lower name).not.mpr (not_not.mpr hname))]
  simp only [bind_assoc]
  refine bind_congr fun txn => bind_congr fun layers => bind_congr fun made => ?_
  obtain ⟨key, made⟩ := made
  dsimp only
  split_ifs
  · rfl
  · simp only [bind_assoc, pure_bind]

/-- Every other name is refused. -/
theorem create_of_not (hname : ¬ IsLayerName lower name) :
    create lower name precedence enabled = KeyProg.err EINVAL :=
  if_pos ((guard_iff lower name).mpr hname)

/-! ### Whoever answers -/

/-- A call that opens or makes a key on the way to a layer's. -/
def IsAbove : KeyCall → Prop
  | .open .. => True
  | .create _ _ access _ _ txn => access = KeyAccess.CREATE_SUB_KEY ∧ txn.isSome
  | _ => False

theorem callsOnly_ask {P : KeyCall → Prop} {c : KeyCall} (hc : P c) : CallsOnly P c.ask :=
  CallsOnly.lift (R := KeyReply) hc ofResult

theorem callsOnly_openLayers (txn : Transaction) : CallsOnly IsAbove (openLayers txn) := by
  have hpart : ∀ key part, CallsOnly IsAbove (do
      let made ← (KeyCall.create (some key) part KeyAccess.CREATE_SUB_KEY noFlags none
        (some txn)).ask
      return made.1) := by
    intro key part
    apply CallsOnly.bind
    · exact callsOnly_ask ⟨rfl, rfl⟩
    · exact fun made => .pure _
  unfold openLayers
  apply CallsOnly.bind
  · exact CallsOnly.lift (R := KeyReply) trivial Except.ok
  rintro (e | layers)
  · dsimp only
    split_ifs
    · apply CallsOnly.bind
      · exact callsOnly_ask trivial
      · intro key
        show CallsOnly IsAbove (["Registry", "Layers"].foldlM _ key)
        rw [List.foldlM_cons]
        apply CallsOnly.bind (hpart _ _)
        intro key₂
        rw [List.foldlM_cons]
        apply CallsOnly.bind (hpart _ _)
        exact fun key₃ => .pure _
    · exact .throw _
  · exact .pure _

theorem IsAbove.enlisted {c : KeyCall} (hc : IsAbove c) : Enlisted c := by
  cases c with
  | «open» => trivial
  | create => exact hc.2
  | _ => exact absurd hc id

/-- A write in a transaction. -/
def IsWrite : KeyCall → Prop
  | .setValue v => v.txn.isSome
  | _ => False

theorem IsWrite.enlisted {c : KeyCall} (hc : IsWrite c) : Enlisted c := by
  cases c with
  | setValue => exact hc
  | _ => exact absurd hc id

theorem callsOnly_writeValues (txn : Transaction) (key : Key) :
    CallsOnly IsWrite (writeValues txn key precedence enabled) := by
  unfold writeValues
  apply CallsOnly.bind
  · exact callsOnly_ask rfl
  · exact fun _ => callsOnly_ask rfl

/-- Preparing does not commit, nor does it change anything outside its transaction. -/
theorem callsOnly_prepare : CallsOnly Enlisted (prepare name precedence enabled) := by
  unfold prepare
  apply CallsOnly.bind
  · exact callsOnly_ask trivial
  intro txn
  apply CallsOnly.bind
  · exact fun evs r h ev hev => (callsOnly_openLayers txn evs r h ev hev).enlisted
  intro layers
  apply CallsOnly.bind
  · exact callsOnly_ask rfl
  rintro ⟨key, made⟩
  dsimp only
  split_ifs
  · exact .throw _
  · apply CallsOnly.bind
    · exact fun evs r h ev hev => (callsOnly_writeValues txn key evs r h ev hev).enlisted
    · exact fun _ => .pure _

/-- The layer's key turned out to be there. -/
def FindsLayer (name : String) (evs : List (Event KeyCall KeyReply)) : Prop :=
  ∃ parent txn key,
    ⟨.create parent name KeyAccess.SET_VALUE noFlags none txn, .ok (key, .openedExisting)⟩ ∈ evs

theorem FindsLayer.append {evs₁ evs₂ : List (Event KeyCall KeyReply)}
    (h : FindsLayer name (evs₁ ++ evs₂)) : FindsLayer name evs₁ ∨ FindsLayer name evs₂ := by
  obtain ⟨parent, txn, key, hmem⟩ := h
  rcases List.mem_append.mp hmem with hmem | hmem
  · exact .inl ⟨parent, txn, key, hmem⟩
  · exact .inr ⟨parent, txn, key, hmem⟩

/-- Calls that do not make a key for writing to it do not find one. -/
theorem not_findsLayer {evs : List (Event KeyCall KeyReply)}
    (h : ∀ ev ∈ evs, ∀ parent txn,
      ev.1 ≠ .create parent name KeyAccess.SET_VALUE noFlags none txn) : ¬ FindsLayer name evs := by
  rintro ⟨parent, txn, key, hmem⟩
  exact h _ hmem parent txn rfl

/-- **A layer that is there already is `EEXIST`.** -/
theorem error_of_findsLayer {evs : List (Event KeyCall KeyReply)} {r : Except Fault Transaction}
    (h : PathE (prepare name precedence enabled) evs r) (hfinds : FindsLayer name evs) :
    r = .error (.errno EEXIST) := by
  have hsingle : ∀ (c : KeyCall) (a : KeyReply c),
      (∀ parent txn, c ≠ .create parent name KeyAccess.SET_VALUE noFlags none txn) →
      ¬ FindsLayer name [⟨c, a⟩] := by
    intro c a hc
    apply not_findsLayer
    intro ev hev
    obtain rfl := List.mem_singleton.mp hev
    exact hc
  unfold prepare at h
  rcases h.bind_inv with ⟨e, hbegin, rfl⟩ | ⟨txn, evs₁, evs₂, rfl, hbegin, hrest⟩
  · obtain ⟨a, rfl, -⟩ := ask_inv hbegin
    exact absurd hfinds (hsingle _ _ fun _ _ => by simp)
  replace hfinds := hfinds.append.resolve_left (by
    rw [ask_inv_ok hbegin]
    exact hsingle _ _ fun _ _ => by simp)
  -- the keys above are made with another access mask, so they are not taken for the layer's
  have habove : ∀ evs r, PathE (openLayers txn) evs r → ¬ FindsLayer name evs := by
    intro evs r h
    apply not_findsLayer
    rintro ev hev parent txn' hcreate
    have hev' := callsOnly_openLayers txn evs r h ev hev
    rw [hcreate] at hev'
    exact absurd hev'.1 (by decide)
  rcases hrest.bind_inv with ⟨e, hopen, rfl⟩ | ⟨layers, evs₃, evs₄, rfl, hopen, hmake⟩
  · exact absurd hfinds (habove _ _ hopen)
  replace hfinds := hfinds.append.resolve_left (habove _ _ hopen)
  rcases hmake.bind_inv with ⟨e, hcreate, rfl⟩ | ⟨⟨key, made⟩, evs₅, evs₆, rfl, hcreate, hwrite⟩
  · -- the call that makes the layer's key failed
    obtain ⟨a, rfl, ha⟩ := ask_inv hcreate
    obtain ⟨parent, txn', key, hmem⟩ := hfinds
    cases List.mem_singleton.mp hmem
    cases ha
  dsimp only at hwrite
  split_ifs at hwrite with hmade
  · exact hwrite.throw_inv.2
  · -- it made the key, and what follows writes to it
    obtain rfl := ask_inv_ok hcreate
    rcases hfinds.append with ⟨parent, txn', key', hmem⟩ | hfinds
    · cases List.mem_singleton.mp hmem
      exact absurd rfl hmade
    · obtain ⟨parent, txn', key', hmem⟩ := hfinds
      have hwrites : CallsOnly IsWrite (do
          writeValues txn key precedence enabled
          return txn) :=
        (callsOnly_writeValues txn key).bind fun _ => .pure _
      exact absurd (hwrites evs₆ r hwrite _ hmem) id

/-! ### Against a store -/

section Store

variable {outcome : Nat → Option Errno} {n : Nat} {s : State fold} {changes : List Change}
  {t fd : Fd} {key : List Bytes}

/-- A key on the way is found or made. -/
theorem meets_part (h : InTxn store t changes s) (hkey : s.path fd = some key)
    (keyName : KeyName) {part : String} (hbytes : utf8 part = keyName.bytes) :
    Meets (faultyKeys outcome) (do
        let made ← (KeyCall.create (some fd) part KeyAccess.CREATE_SUB_KEY noFlags none
          (some t)).ask
        return made.1) (n, s)
      (fun fd' u => u.2.path fd' = some (key ++ [fold keyName.bytes]) ∧
        ∃ changes', InTxn store t changes' u.2 ∧
          applyAll store changes' = (applyAll store changes).insert key keyName .new)
      fun _ => True :=
  meets_ask fun _ _ hcall => .pure (h.create_insert hkey hbytes hcall)

/-- **The layers key is found or made.** -/
theorem meets_openLayers (h : InTxn store t [] s) :
    Meets (faultyKeys outcome) (openLayers t) (n, s)
      (fun layers u => u.2.path layers = some (layersPath fold) ∧ store.Has (systemPath fold) ∧
        ∃ changes, InTxn store t changes u.2 ∧ applyAll store changes = withAbove store)
      fun _ => True := by
  unfold openLayers
  apply meets_attempt
  · -- the layers key is there, and so is all above it
    intro layers s' hcall
    obtain ⟨hpath, ⟨o, rfl⟩, e, he⟩ := open_ok hcall
    change _ = some (layersKey.map fold) at hpath
    change s.store.find? (layersKey.map fold) = _ at he
    rw [← layersPath_eq] at hpath he
    rw [h.store] at he
    exact .pure ⟨hpath, has_systemPath he, [], h.push o, (withAbove_of_find? he).symm⟩
  · -- it is missing, or the call was made to fail
    intro e s' hcall
    have hs' : s' = s := hcall.elim id open_error
    subst hs'
    dsimp only
    split_ifs
    · -- the first layer: the keys on the way are made one by one
      apply meets_ask
      intro system s₁ hsystem
      obtain ⟨hpath₁, ⟨o, rfl⟩, e₁, he₁⟩ := open_ok hsystem
      have hhas : store.Has (systemPath fold) := by
        rw [← h.store]
        exact Directory.has_of_find? he₁
      have h₁ : InTxn store t [] (s'.push o) := h.push o
      show Meets _ (["Registry", "Layers"].foldlM _ system) _ _ _
      rw [List.foldlM_cons]
      apply Meets.bind (meets_part h₁ hpath₁ registryName rfl)
      rintro registry ⟨n₂, s₂⟩ ⟨hpath₂, changes₂, h₂, hchanges₂⟩
      rw [List.foldlM_cons]
      apply Meets.bind (meets_part h₂ hpath₂ layersName rfl)
      rintro layers ⟨n₃, s₃⟩ ⟨hpath₃, changes₃, h₃, hchanges₃⟩
      refine .pure ⟨hpath₃, hhas, changes₃, h₃, ?_⟩
      rw [hchanges₃, hchanges₂]
      rfl
    · exact .throw trivial

/-- Both values are written. -/
theorem meets_writeValues (h : InTxn store t changes s)
    (hkey : s.path fd = some (layerPath fold name)) :
    Meets (faultyKeys outcome) (writeValues t fd precedence enabled) (n, s)
      (fun _ u => ∃ changes', InTxn store t changes' u.2 ∧
        applyAll store changes'
          = applyAll (applyAll store changes) (writes fold name precedence enabled))
      fun _ => True := by
  unfold writeValues
  apply meets_ask
  intro _ s₁ hprecedence
  obtain ⟨h₁, hkey₁⟩ := h.setValue_ok hkey hprecedence
  apply meets_call
  intro _ s₂ henabled
  obtain ⟨h₂, -⟩ := h₁.setValue_ok hkey₁ henabled
  refine ⟨_, h₂, ?_⟩
  rw [applyAll_concat, applyAll_concat]
  rfl

/-- **A prepared transaction holds the changes that make the layer.** -/
theorem meets_prepare (hname : IsComponent name) :
    Meets (faultyKeys outcome) (prepare name precedence enabled) (n, s)
      (fun t u => ∃ changes, InTxn s.store t changes u.2 ∧
        CreatesLayer s.store (applyAll s.store changes) name precedence enabled)
      fun _ => True := by
  unfold prepare
  apply meets_ask
  intro t s₁ hbegin
  obtain ⟨ht, rfl⟩ := Prod.mk.inj (keys_begin.symm.trans hbegin)
  obtain rfl := Except.ok.inj ht
  have h₁ : InTxn s.store s.objects.length [] (s.push (.txn [])) :=
    { store := rfl, txn := getElem?_push_self _ }
  apply Meets.bind (meets_openLayers h₁)
  rintro layers ⟨n₂, s₂⟩ ⟨hlayers, hsystem, changes₂, h₂, hchanges₂⟩
  apply meets_ask
  rintro ⟨key, made⟩ s₃ hcreate
  obtain ⟨hkey, hmade⟩ := h₂.create_ok hlayers hname.components hcreate
  dsimp only
  split_ifs with hexisting
  · exact .throw trivial
  · obtain ⟨hexisting', -⟩ | ⟨-, keyName, hbytes, h₃, hnone, -⟩ := hmade
    · exact absurd hexisting' hexisting
    rw [hchanges₂] at hnone
    -- the key is new, and both values are written in the same transaction
    apply Meets.bind (meets_writeValues h₃ hkey)
    rintro _ ⟨n₄, s₄⟩ ⟨changes₄, h₄, hchanges₄⟩
    refine .pure ⟨changes₄, h₄, ?_⟩
    rw [hchanges₄, applyAll_concat, hchanges₂]
    exact createsLayer hsystem hbytes hnone

/-- **A layer that is created is there.** -/
theorem meets_create (lower : String → String) :
    Meets (faultyKeys outcome) (create lower name precedence enabled) (n, s)
      (fun _ u => CreatesLayer s.store u.2.store name precedence enabled) fun _ => True := by
  by_cases hname : IsLayerName lower name
  · rw [create_eq hname]
    apply Meets.bind (meets_prepare hname.toIsComponent)
    rintro t ⟨n₁, s₁⟩ ⟨changes, hs₁, hcreates⟩
    apply meets_call
    intro _ s₂ hcommit
    obtain ⟨-, rfl⟩ := Prod.mk.inj ((keys_commit hs₁.txn).symm.trans hcommit)
    show CreatesLayer s.store (applyAll s₁.store changes) name precedence enabled
    rw [hs₁.store]
    exact hcreates
  · rw [create_of_not hname]
    exact .throw trivial

/-- A commit that fails does nothing. -/
theorem commit_error {e : Errno} {u : Nat × State fold}
    (h : faultyKeys outcome (.commit t) (n, s) = (.error e, u)) : u.2.store = s.store := by
  rcases ho : outcome n with _ | e'
  · rw [faultyKeys, Handler.faulty_of_none ho] at h
    obtain ⟨herror, rfl⟩ := Prod.mk.inj h
    change (s.commit t).1 = _ at herror
    show (s.commit t).2.store = _
    unfold State.commit at herror ⊢
    split at herror
    · cases herror
    · rfl
  · rw [faultyKeys, Handler.faulty_of_some ho] at h
    obtain ⟨-, rfl⟩ := Prod.mk.inj h
    rfl

/-- What a call of `create` does, from the store before it to the one after it: it has an effect
exactly if its commit succeeds. -/
structure AllOrNothing (name : String) (precedence : UInt32) (enabled : Bool)
    (before after : Store fold) (evs : List (Event KeyCall KeyReply)) (r : Except Fault Unit) :
    Prop where
  ok_iff : r = .ok () ↔ ∃ txn, ⟨.commit txn, .ok ()⟩ ∈ evs
  ok : r = .ok () → CreatesLayer before after name precedence enabled
  error : ∀ e, r = .error e → after = before
  found : FindsLayer name evs → r = .error (.errno EEXIST)

/-- Without a commit that succeeds there is no effect. -/
theorem AllOrNothing.of_not_committed {evs : List (Event KeyCall KeyReply)} {e : Fault}
    {after : Store fold} (hevs : ∀ txn, ⟨.commit txn, .ok ()⟩ ∉ evs) (hafter : after = store)
    (hfound : FindsLayer name evs → e = .errno EEXIST) :
    AllOrNothing name precedence enabled store after evs (.error e) where
  ok_iff := iff_of_false (fun h => nomatch h) fun ⟨txn, hmem⟩ => hevs txn hmem
  ok := fun h => nomatch h
  error := fun _ _ => hafter
  found := fun h => congrArg Except.error (hfound h)

/-- With a name that a layer can have, it is so by the commit at its end. -/
theorem allOrNothing_of_isLayerName {lower : String → String} (hname : IsLayerName lower name)
    (u : Nat × State fold) :
    AllOrNothing name precedence enabled u.2.store
      (exec (faultyKeys outcome) (create lower name precedence enabled) u).2.2.store
      (events (faultyKeys outcome) (create lower name precedence enabled) u)
      (exec (faultyKeys outcome) (create lower name precedence enabled) u).1 := by
  obtain ⟨n, s⟩ := u
  set h := faultyKeys outcome
  set p := prepare name precedence enabled
  have hpath : PathE p (events h p (n, s)) (exec h p (n, s)).1 := Path.run h p.run (n, s)
  have hcalls : ∀ txn, ⟨.commit txn, .ok ()⟩ ∉ events h p (n, s) :=
    fun txn hmem => absurd (callsOnly_prepare _ _ hpath _ hmem) id
  have hstore : (exec h p (n, s)).2.2.store = s.store := store_of_enlisted callsOnly_prepare _
  have hcreates : Meets h (create lower name precedence enabled) (n, s) _ _ := meets_create lower
  unfold Meets at hcreates
  rw [create_eq hname] at hcreates ⊢
  rcases hr : exec h p (n, s) with ⟨e | t, n', s'⟩
  · -- it ended before the commit
    rw [hr] at hstore hpath
    rw [exec_bind_error hr, events_bind_error hr]
    apply AllOrNothing.of_not_committed hcalls hstore
    exact fun hfound => Except.error.inj (error_of_findsLayer hpath hfound)
  · rw [hr] at hstore hpath
    have hnotFound : ∀ a, ¬ FindsLayer name (events h p (n, s) ++ [⟨.commit t, a⟩]) := by
      intro a hfound
      rcases hfound.append with hfound | ⟨_, _, _, hmem⟩
      · exact nomatch error_of_findsLayer hpath hfound
      · cases List.mem_singleton.mp hmem
    rw [exec_bind_ok hr, exec_ask] at hcreates ⊢
    rw [events_bind_ok hr, events_ask]
    rcases hcommit : h (.commit t) (n', s') with ⟨e | _, u'⟩
    · -- the commit fails
      refine .of_not_committed ?_ ((commit_error hcommit).trans hstore)
        fun hfound => absurd hfound (hnotFound _)
      intro txn hmem
      rcases List.mem_append.mp hmem with hmem | hmem
      · exact hcalls txn hmem
      · cases List.mem_singleton.mp hmem
    · -- the commit makes the changes
      rw [hcommit] at hcreates
      constructor
      · exact iff_of_true rfl ⟨t, List.mem_append_right _ (List.mem_singleton_self _)⟩
      · exact fun _ => hcreates
      · exact fun _ h => nomatch h
      · exact fun hfound => absurd hfound (hnotFound _)

/-- **`create` is all or nothing**, whichever of its calls fail. -/
theorem create_allOrNothing (lower : String → String) (outcome : Nat → Option Errno)
    (name : String) (precedence : UInt32) (enabled : Bool) (u : Nat × State fold) :
    AllOrNothing name precedence enabled u.2.store
      (exec (faultyKeys outcome) (create lower name precedence enabled) u).2.2.store
      (events (faultyKeys outcome) (create lower name precedence enabled) u)
      (exec (faultyKeys outcome) (create lower name precedence enabled) u).1 := by
  by_cases hname : IsLayerName lower name
  · exact allOrNothing_of_isLayerName hname u
  · rw [create_of_not hname]
    refine .of_not_committed ?_ rfl ?_
    · exact fun txn hmem => nomatch hmem
    · rintro ⟨_, _, _, hmem⟩
      exact nomatch hmem

end Store

end Layers

end Peios.Registry
