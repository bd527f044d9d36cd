import Peios.Registry.Equiv.LayerRead

/-!
# Layers as a store of records

What a layer was told to be is a `Record`, and `recordOf` follows it through the calls that create,
change and delete layers, of which only those on names that compare equal matter.

`Represents` says that a store has the record of a name: the layer's key holds its values, or is not
there.  Each call that succeeds keeps this for its own name (`represents_run`) and changes no other
(`find?_run`), and `read` finds the record again (`readsAs_of_represents`); `read_recordOf` carries
it through a run of calls.
-/

namespace Peios.Registry.Layers

open Interaction Prog ByteString Security Store

variable {fold : Bytes → Bytes} {lib : SidLib} {lower : String → String} {name : String}

/-! ### Records -/

/-- What a layer was told to be. -/
structure Record (lib : SidLib) where
  precedence : UInt32
  enabled : Bool
  owner : Option (SidRef lib)
  deriving DecidableEq

/-- A call that changes a layer. -/
inductive RecordOp (lib : SidLib) where
  | create (precedence : UInt32) (enabled : Bool)
  | setPrecedence (precedence : UInt32)
  | setEnabled (enabled : Bool)
  | setOwner (owner : SidRef lib)
  | delete

/-- The function that is called: an owner is passed as the bytes of its SID. -/
def RecordOp.toLayerOp : RecordOp lib → LayerOp
  | .create precedence enabled => .create precedence enabled
  | .setPrecedence precedence => .setPrecedence precedence
  | .setEnabled enabled => .setEnabled enabled
  | .setOwner owner => .setOwner owner.bytes
  | .delete => .delete

/-- What it does to the layer's record. -/
def RecordOp.apply : RecordOp lib → Option (Record lib) → Option (Record lib)
  | .create precedence enabled, _ => some { precedence, enabled, owner := none }
  | .setPrecedence precedence, r => r.map fun r => { r with precedence }
  | .setEnabled enabled, r => r.map fun r => { r with enabled }
  | .setOwner owner, r => r.map fun r => { r with owner := some owner }
  | .delete, _ => none

/-- The record of a name after the calls on names that compare equal to it. -/
def recordOf (fold : Bytes → Bytes) (calls : List (String × RecordOp lib)) (name : String) :
    Option (Record lib) :=
  (calls.filter fun call => fold (utf8 call.1) = fold (utf8 name)).foldl
    (fun r call => call.2.apply r) none

/-! ### Keys that hold records -/

/-- A key holds the values of a record, and lets everyone in. -/
structure HoldsRecord (key : KeyBody) (r : Record lib) : Prop where
  precedence : HoldsValue key (utf8 "Precedence") .DWORD (leBytes 4 r.precedence.toNat)
  enabled : HoldsValue key (utf8 "Enabled") .DWORD (leBytes 4 r.enabled.toNat)
  owner_none : r.owner = none → key.values (utf8 "Owner") = .error ENOENT
  owner_some : ∀ sid, r.owner = some sid → HoldsValue key (utf8 "Owner") .BINARY sid.bytes
  opens : ∀ access, key.refuses access = none

variable {key : KeyBody} {r : Record lib}

namespace HoldsRecord

theorem of_new {precedence : UInt32} {enabled : Bool} (h : HoldsNewLayer key precedence enabled) :
    HoldsRecord key ({ precedence, enabled, owner := none } : Record lib) where
  precedence := h.precedence
  enabled := h.enabled
  owner_none := fun _ => h.others _ (by decide) (by decide)
  owner_some := nofun
  opens := h.opens

theorem write_precedence (h : HoldsRecord key r) (precedence : UInt32) :
    HoldsRecord (key.write (utf8 "Precedence") .DWORD (leBytes 4 precedence.toNat))
      { r with precedence } where
  precedence := holdsValue_write (by rw [length_leBytes]; decide)
  enabled := h.enabled.write_ne (by decide)
  owner_none := fun hnone => (values_write_ne (by decide) _ _).trans (h.owner_none hnone)
  owner_some := fun sid hsid => (h.owner_some sid hsid).write_ne (by decide)
  opens := h.opens

theorem write_enabled (h : HoldsRecord key r) (enabled : Bool) :
    HoldsRecord (key.write (utf8 "Enabled") .DWORD (leBytes 4 enabled.toNat))
      { r with enabled } where
  precedence := h.precedence.write_ne (by decide)
  enabled := holdsValue_write (by rw [length_leBytes]; decide)
  owner_none := fun hnone => (values_write_ne (by decide) _ _).trans (h.owner_none hnone)
  owner_some := fun sid hsid => (h.owner_some sid hsid).write_ne (by decide)
  opens := h.opens

theorem length_sid (sid : SidRef lib) : sid.bytes.length < 2 ^ 32 :=
  calc sid.bytes.length ≤ lib.maxBytes := lib.length_le _ sid.valid
    _ < 2 ^ 8 := lib.maxBytes_lt
    _ < 2 ^ 32 := by decide

theorem write_owner (h : HoldsRecord key r) (owner : SidRef lib) :
    HoldsRecord (key.write (utf8 "Owner") .BINARY owner.bytes) { r with owner := some owner } where
  precedence := h.precedence.write_ne (by decide)
  enabled := h.enabled.write_ne (by decide)
  owner_none := nofun
  owner_some := by
    rintro sid ⟨⟩
    exact holdsValue_write (length_sid owner)
  opens := h.opens

end HoldsRecord

/-! ### Calls that change layers -/

section Calls

variable {outcome : Nat → Option Errno} {n : Nat} {s : State fold}

/-- The key of a layer that is opened is there. -/
theorem openLayer_ok (hname : IsComponent name) {access : UInt32} {fd : Fd} {s' : State fold}
    (hcall : keys (.open none (LAYERS ++ "\\" ++ name) access noFlags) s = (.ok fd, s')) :
    s'.path fd = some (layerPath fold name) ∧ s'.store = s.store := by
  obtain ⟨hpath, ⟨o, rfl⟩, -⟩ := open_ok hcall
  refine ⟨?_, rfl⟩
  rw [hpath, map_components_layer, namedPath_eq hname]

/-- A function that refuses the base layer and otherwise changes the layer's key. -/
theorem meets_change (hname : IsComponent name) {access : UInt32} {change : Key → KeyProg Unit}
    {post : Unit → Nat × State fold → Prop}
    (h : ∀ fd s', s'.path fd = some (layerPath fold name) → s'.store = s.store →
      Meets (faultyKeys outcome) (change fd) (n + 1, s') post fun _ => True) :
    Meets (faultyKeys outcome)
      (if isBase lower name then KeyProg.err EINVAL else openLayer name access >>= change)
      (n, s) post fun _ => True := by
  split_ifs
  · exact .throw trivial
  · apply meets_ask
    intro fd s' hopen
    obtain ⟨hpath, hstore⟩ := openLayer_ok hname hopen
    exact h fd s' hpath hstore

/-- A value that is set is written to the layer's key. -/
theorem meets_set (hname : IsComponent name) {value : String} {ty : ValueType} {data : Bytes}
    (hvalue : (utf8 value).length < 2 ^ 32) (hdata : data.length < 2 ^ 32) :
    Meets (faultyKeys outcome) (set lower name value ty data) (n, s)
      (fun _ u => u.2.store
        = s.store.modify (layerPath fold name) (.write (utf8 value) ty data))
      fun _ => True := by
  unfold set
  apply meets_change hname
  intro fd s₁ hpath hstore
  apply meets_call
  intro _ s₂ hset
  obtain rfl := keys_setValue_ok hpath hset
  rw [bytesU32_of_lt hvalue, bytesU32_of_lt hdata, ← hstore]
  rfl

/-- A layer that is deleted has no keys under it, and is gone. -/
theorem meets_delete (hname : IsComponent name) :
    Meets (faultyKeys outcome) (delete lower name) (n, s)
      (fun _ u => s.store.children (layerPath fold name) = [] ∧
        u.2.store = s.store.erase (layerPath fold name))
      fun _ => True := by
  unfold delete
  apply meets_change hname
  intro fd s₁ hpath hstore
  apply meets_call
  intro _ s₂ hdelete
  obtain ⟨hchildren, rfl⟩ := keys_deleteKey_ok hpath hdelete
  rw [← hstore]
  exact ⟨hchildren, rfl⟩

end Calls

/-! ### Stores that hold records -/

/-- The store has the record of a name: its key holds it, or is not there. -/
def Represents (store : Store fold) (name : String) : Option (Record lib) → Prop
  | none => store.find? (layerPath fold name) = none
  | some r => ∃ key, store.find? (layerPath fold name) = some key ∧ HoldsRecord key.value r

/-- Which record a store has depends on what is found in it. -/
theorem Represents.congr {before after : Store fold} {other : String} {r : Option (Record lib)}
    (h : Represents before name r)
    (hfind : after.find? (layerPath fold other) = before.find? (layerPath fold name)) :
    Represents after other r := by
  cases r with
  | none => exact hfind.trans h
  | some r =>
    obtain ⟨key, hkey, hholds⟩ := h
    exact ⟨key, hfind.trans hkey, hholds⟩

theorem layerPath_injective {other : String} (h : layerPath fold other = layerPath fold name) :
    fold (utf8 other) = fold (utf8 name) :=
  List.singleton_inj.mp (List.append_cancel_left h)

/-- What a call does to a store: it changes the record of its name, and that of no other. -/
structure Changes (op : RecordOp lib) (name : String) (before after : Store fold) : Prop where
  others : ∀ other, fold (utf8 other) ≠ fold (utf8 name) →
    after.find? (layerPath fold other) = before.find? (layerPath fold other)
  own : ∀ r, Represents before name r → Represents after name (op.apply r)

variable {before after : Store fold} {op : RecordOp lib}

/-- A layer that is created has the record of a new layer. -/
theorem changes_create {precedence : UInt32} {enabled : Bool}
    (h : CreatesLayer before after name precedence enabled) :
    Changes (.create precedence enabled : RecordOp lib) name before after where
  others := by
    intro other hne
    -- the other keys that are made lie above the layers'
    obtain ⟨hlayers, hregistry⟩ := layerPath_ne fold other
    exact h.others _ hregistry hlayers fun hpath => hne (layerPath_injective hpath)
  own := by
    rintro r -
    obtain ⟨key, hkey, -, hholds⟩ := h.layer
    exact ⟨key, hkey, .of_new hholds⟩

/-- A value that is written changes the record that the key holds. -/
theorem changes_modify {f : KeyBody → KeyBody} {g : Record lib → Record lib}
    (hop : ∀ r, op.apply r = r.map g)
    (hf : ∀ key r, HoldsRecord key r → HoldsRecord (f key) (g r)) :
    Changes op name before (before.modify (layerPath fold name) f) where
  others := by
    intro other hne
    rw [Directory.find?_modify, if_neg fun hpath => hne (layerPath_injective hpath)]
  own := by
    rintro (_ | r) hr
    · rw [hop, Option.map_none]
      show (before.modify _ f).find? _ = none
      rw [Directory.find?_modify, if_pos rfl, hr, Option.map_none]
    · obtain ⟨key, hkey, hholds⟩ := hr
      rw [hop, Option.map_some]
      refine ⟨{ key with value := f key.value }, ?_, hf _ _ hholds⟩
      rw [Directory.find?_modify, if_pos rfl, hkey, Option.map_some]

/-- A layer that is deleted has none. -/
theorem changes_delete (hchildren : before.children (layerPath fold name) = []) :
    Changes (.delete : RecordOp lib) name before (before.erase (layerPath fold name)) where
  others := by
    intro other hne
    rw [Directory.find?_erase hchildren, if_neg fun hpath => hne (layerPath_injective hpath)]
  own := by
    rintro r -
    show (before.erase _).find? _ = none
    rw [Directory.find?_erase hchildren, if_pos rfl]

variable {outcome : Nat → Option Errno} {n : Nat} {s : State fold}

/-- **A call that succeeds does to the store what it does to the record.** -/
theorem meets_run (hname : IsComponent name) (op : RecordOp lib) :
    Meets (faultyKeys outcome) (op.toLayerOp.run lower name) (n, s)
      (fun _ u => Changes op name s.store u.2.store) fun _ => True := by
  have hmono : ∀ {p : KeyProg Unit} {post : Unit → Nat × State fold → Prop},
      Meets (faultyKeys outcome) p (n, s) post (fun _ => True) →
      (∀ u, post () u → Changes op name s.store u.2.store) →
      Meets (faultyKeys outcome) p (n, s) (fun _ u => Changes op name s.store u.2.store)
        fun _ => True :=
    fun hp hpost => hp.mono (fun _ u => hpost u) fun _ => id
  cases op with
  | create precedence enabled => exact hmono (meets_create lower) fun u => changes_create
  | setPrecedence precedence =>
    apply hmono (meets_set hname (by decide) (by rw [length_leBytes]; decide))
    intro u hu
    rw [hu]
    exact changes_modify (fun _ => rfl) fun _ _ h => h.write_precedence precedence
  | setEnabled enabled =>
    apply hmono (meets_set hname (by decide) (by rw [length_leBytes]; decide))
    intro u hu
    rw [hu]
    exact changes_modify (fun _ => rfl) fun _ _ h => h.write_enabled enabled
  | setOwner owner =>
    apply hmono (meets_set hname (by decide) (HoldsRecord.length_sid owner))
    intro u hu
    rw [hu]
    exact changes_modify (fun _ => rfl) fun _ _ h => h.write_owner owner
  | delete =>
    apply hmono (meets_delete hname)
    rintro u ⟨hchildren, hu⟩
    rw [hu]
    exact changes_delete hchildren

/-! ### Reading a record -/

/-- What `read` returns of a layer that has this record. -/
def ReadsAs (name : String) (r : Option (Record lib)) (result : Outcome Layer) : Prop :=
  match r with
  | none => result = .error (.errno ENOENT)
  | some r => ∃ owner, owner.map Sid.asBytes = r.owner.map SidRef.bytes ∧
      result = .ok
        { name, precedence := r.precedence, enabled := r.enabled, owner, malformed := false }

/-- A key that holds a record is read as it. -/
theorem layerOf_of_holdsRecord {key : KeyBody} {r : Record lib} (h : HoldsRecord key r)
    (name : String) : ReadsAs name (some r) (layerOf lib name key) := by
  have hprecedence : valueOf key "Precedence" = .ok (some (.dword r.precedence)) :=
    valueOf_eq_dword.mpr h.precedence
  have henabled : valueOf key "Enabled" = .ok (some (.dword (if r.enabled then 1 else 0))) := by
    apply valueOf_eq_dword.mpr
    have henabled := h.enabled
    cases hr : r.enabled
    · rw [hr] at henabled
      exact henabled
    · rw [hr] at henabled
      exact henabled
  have howner : ∃ d owner, valueOf key "Owner" = .ok d ∧ ownerOf lib d = .ok (owner, false) ∧
      owner.map Sid.asBytes = r.owner.map SidRef.bytes := by
    rcases hr : r.owner with _ | sid
    · -- no owner was ever set
      exact ⟨none, none, valueOf_eq_none.mpr (h.owner_none hr), rfl, rfl⟩
    · obtain ⟨owned, howned, hbytes⟩ := Sid.fromRef_spec sid
      have hsid : SidRef.fromBytes lib sid.bytes = some sid := SidRef.fromBytes_eq_some.mpr rfl
      refine ⟨_, some owned, valueOf_eq_binary.mpr (h.owner_some sid hr), ?_, congrArg some hbytes⟩
      simp only [ownerOf, hsid, howned, ok_bind]
      rfl
  obtain ⟨d, owner, hd, howner, hbytes⟩ := howner
  refine ⟨owner, hbytes, layerOf_eq_ok.mpr ⟨⟨_, hprecedence, rfl⟩, ⟨_, henabled, ?_⟩, d, hd, howner⟩⟩
  exact enabledOf_eq.mpr (.inr rfl)

/-- **`read` returns the record that the store has.** -/
theorem readsAs_of_represents {store : Store fold} {r : Option (Record lib)}
    (hname : IsComponent name) (h0 : 0 ∉ utf8 name) (h : Represents store name r) :
    ReadsAs name r (readOf lib store name) := by
  unfold readOf
  rw [if_neg h0, namedPath_eq hname]
  rcases r with _ | r
  · rw [show store.find? (layerPath fold name) = none from h]
    rfl
  · obtain ⟨key, hkey, hholds⟩ := h
    rw [hkey]
    dsimp only
    rw [hholds.opens]
    exact layerOf_of_holdsRecord hholds name

/-! ### Runs of calls -/

/-- Calls that succeed, one after another, on names that are one component of a path. -/
inductive Runs (lower : String → String) (outcome : Nat → Option Errno) :
    Nat × State fold → List (String × RecordOp lib) → Nat × State fold → Prop
  | nil (u : Nat × State fold) : Runs lower outcome u [] u
  | cons {u u' : Nat × State fold} {name : String} {op : RecordOp lib}
      {calls : List (String × RecordOp lib)} (hname : IsComponent name)
      (hok : (exec (faultyKeys outcome) (op.toLayerOp.run lower name) u).1 = .ok ())
      (hcalls : Runs lower outcome
        (exec (faultyKeys outcome) (op.toLayerOp.run lower name) u).2 calls u') :
      Runs lower outcome u ((name, op) :: calls) u'

/-- What one call that succeeds does. -/
theorem changes_of_ok (hname : IsComponent name) {u : Nat × State fold}
    (hok : (exec (faultyKeys outcome) (op.toLayerOp.run lower name) u).1 = .ok ()) :
    Changes op name u.2.store
      (exec (faultyKeys outcome) (op.toLayerOp.run lower name) u).2.2.store := by
  have hmeets : Meets (faultyKeys outcome) (op.toLayerOp.run lower name) (u.1, u.2) _ _ :=
    meets_run hname op
  exact hmeets.of_ok hok

/-- What a run of them does to one name. -/
theorem represents_runs {u u' : Nat × State fold} {calls : List (String × RecordOp lib)}
    (h : Runs lower outcome u calls u') {r : Option (Record lib)}
    (hr : Represents u.2.store name r) :
    Represents u'.2.store name
      ((calls.filter fun call => fold (utf8 call.1) = fold (utf8 name)).foldl
        (fun r call => call.2.apply r) r) := by
  induction h generalizing r with
  | nil => exact hr
  | @cons u u' other op calls hother hok hcalls ih =>
    -- one call, and then the rest from the record that it leaves
    obtain ⟨hothers, hown⟩ := changes_of_ok hother hok
    by_cases hfold : fold (utf8 other) = fold (utf8 name)
    · -- it is a call on this name, however that is spelled
      have hpath : layerPath fold other = layerPath fold name := by
        unfold layerPath
        rw [hfold]
      rw [List.filter_cons, if_pos (decide_eq_true hfold), List.foldl_cons]
      apply ih
      have hother := hown r (hr.congr (congrArg _ hpath))
      exact hother.congr (congrArg _ hpath.symm)
    · -- a call on another name leaves the record as it is
      rw [List.filter_cons, if_neg (by simpa using hfold)]
      apply ih
      exact hr.congr (hothers name (Ne.symm hfold))

/-- **Layers are a store of records**: after calls that succeed, `read` returns the record that the
calls on the name make, and a call on another name does not change what it returns. -/
theorem read_recordOf {u u' : Nat × State fold} {calls : List (String × RecordOp lib)}
    (hempty : u.2.store.children (layersPath fold) = []) (hcalls : Runs lower outcome u calls u')
    (hname : IsComponent name) (h0 : 0 ∉ utf8 name) :
    ReadsAs name (recordOf fold calls name) (exec keys (read lib name) u'.2).1 ∧
    ∀ (other : String) (op : RecordOp lib), fold (utf8 other) ≠ fold (utf8 name) →
      IsComponent other →
      (exec (faultyKeys outcome) (op.toLayerOp.run lower other) u').1 = .ok () →
      (exec keys (read lib name)
        (exec (faultyKeys outcome) (op.toLayerOp.run lower other) u').2.2).1
        = (exec keys (read lib name) u'.2).1 := by
  -- without layers no name has a record
  have hnone : Represents u.2.store name (none : Option (Record lib)) := by
    rcases hfind : u.2.store.find? (layerPath fold name) with _ | e
    · exact hfind
    · have hmem := (Directory.mem_children_of_find? hfind).1
      rw [hempty] at hmem
      cases hmem
  constructor
  · rw [(exec_read lib name u'.2).1]
    exact readsAs_of_represents hname h0 (represents_runs hcalls hnone)
  · intro other op hne hother hok
    have hfind := (changes_of_ok hother hok).others name (Ne.symm hne)
    rw [(exec_read lib name u'.2).1, (exec_read lib name _).1]
    unfold readOf
    rw [namedPath_eq hname, hfind]

/-- `S-1-5-18`. -/
def systemSid : SidRef sidLayout := ⟨[1, 1, 0, 0, 0, 0, 0, 5, 18, 0, 0, 0], by decide⟩

/-- Two layers made and changed, and one of them deleted. -/
def darkCalls : List (String × RecordOp sidLayout) :=
  [("Dark", .create 5 true), ("light", .create 1 false), ("dark", .setEnabled false),
    ("DARK", .setOwner systemSid), ("Light", .delete)]

theorem read_recordOf_dark :
    ∃ u', Runs asciiLower (fun _ => none) (0, { store := systemStore, objects := [] }) darkCalls u' ∧
      ReadsAs "dark" (some { precedence := 5, enabled := false, owner := some systemSid })
        (exec keys (read sidLayout "dark") u'.2).1 := by
  have hname : ∀ name ∈ ["Dark", "light", "dark", "DARK", "Light"], IsComponent name := by
    intro name hname
    have hall : ∀ name ∈ ["Dark", "light", "dark", "DARK", "Light"],
        name ≠ "" ∧ '\\' ∉ name.toList ∧ '/' ∉ name.toList := by
      decide
    obtain ⟨h₁, h₂, h₃⟩ := hall name hname
    exact ⟨h₁, h₂, h₃⟩
  have hruns : Runs asciiLower (fun _ => none) (0, { store := systemStore, objects := [] })
      darkCalls _ :=
    .cons (hname _ (by simp)) (by decide +kernel) <|
    .cons (hname _ (by simp)) (by decide +kernel) <|
    .cons (hname _ (by simp)) (by decide +kernel) <|
    .cons (hname _ (by simp)) (by decide +kernel) <|
    .cons (hname _ (by simp)) (by decide +kernel) <| .nil _
  have hempty : systemStore.children (layersPath asciiFold) = [] := by
    apply Directory.children_of_find?_eq_none layersPath_ne_nil
    decide +kernel
  have hrecord : recordOf asciiFold darkCalls "dark"
      = some { precedence := 5, enabled := false, owner := some systemSid } := by
    decide +kernel
  refine ⟨_, hruns, ?_⟩
  rw [← hrecord]
  exact (read_recordOf hempty hruns (hname _ (by simp)) (by decide)).1

end Peios.Registry.Layers
