import Peios.Registry.Equiv.LayerRead

/-!
# What the values of a layer's key are taken for

`read` makes each field of a `Layer` from one value of the layer's key.  A `ValueForm` is the form
that a value should have, what it says in that form, and what holds without it; `Reads` is what is
made of a value that may not be there, or not have that form.

`read_classifies` puts the three values together: whatever a value holds, it has no part in what is
made of the others.
-/

namespace Peios.Registry.Layers

open Interaction Prog ByteString Security Store

variable {fold : Bytes → Bytes} {lib : SidLib} {name : String} {s : State fold}

/-! ### Forms of values -/

/-- The form that a value should have. -/
structure ValueForm (α : Type) where
  WellFormed : ValueType → Bytes → Prop
  /-- What the bytes of a value of that form say. -/
  Says : Bytes → α → Prop
  default : α

/-- `Precedence` is a number. -/
def precedenceForm : ValueForm UInt32 where
  WellFormed ty data := ty = .DWORD ∧ data.length = 4
  Says data precedence := precedence.toNat = ofLeBytes data
  default := 0

/-- `Enabled` is 0 or 1. -/
def enabledForm : ValueForm Bool where
  WellFormed ty data := ty = .DWORD ∧ data.length = 4 ∧ ofLeBytes data ≤ 1
  Says data enabled := enabled = true ↔ ofLeBytes data = 1
  default := true

/-- `Owner` is a SID. -/
def ownerForm (lib : SidLib) : ValueForm (Option Sid) where
  WellFormed ty data := ty = .BINARY ∧ lib.valid data = true
  Says data owner := ∃ sid, owner = some sid ∧ sid.asBytes = data
  default := none

/-- A value that a key may hold. -/
abbrev Stored := Option (ValueType × Bytes)

namespace ValueForm

variable {α : Type} {form : ValueForm α} {stored : Stored} {r : α × Bool}

/-- The value is there, but not in its form. -/
def Malformed (form : ValueForm α) (stored : Stored) : Prop :=
  ∃ ty data, stored = some (ty, data) ∧ ¬ form.WellFormed ty data

/-- The field has what the value says, or what holds without it. -/
structure Takes (form : ValueForm α) (stored : Stored) (field : α) : Prop where
  absent : stored = none → field = form.default
  wellFormed : ∀ ty data, stored = some (ty, data) → form.WellFormed ty data → form.Says data field
  malformed : form.Malformed stored → field = form.default

/-- What is made of a value: a field, and whether the value is malformed. -/
inductive Reads (form : ValueForm α) : Stored → α × Bool → Prop
  | absent : Reads form none (form.default, false)
  | wellFormed {ty : ValueType} {data : Bytes} {field : α} (h : form.WellFormed ty data)
      (hfield : form.Says data field) : Reads form (some (ty, data)) (field, false)
  | malformed {ty : ValueType} {data : Bytes} (h : ¬ form.WellFormed ty data) :
      Reads form (some (ty, data)) (form.default, true)

theorem malformed_some {ty : ValueType} {data : Bytes} :
    form.Malformed (some (ty, data)) ↔ ¬ form.WellFormed ty data := by
  constructor
  · rintro ⟨ty', data', h, hnot⟩
    obtain ⟨rfl, rfl⟩ := Prod.mk.inj (Option.some.inj h)
    exact hnot
  · intro h
    exact ⟨ty, data, rfl, h⟩

/-- A value is reported as malformed exactly when it is. -/
theorem Reads.malformed_iff (h : form.Reads stored r) : r.2 = true ↔ form.Malformed stored := by
  cases h with
  | absent => simp [Malformed]
  | wellFormed h => simp [malformed_some, h]
  | malformed h => simp [malformed_some, h]

/-- Whatever else is reported, the field is what the value says. -/
theorem Reads.takes (h : form.Reads stored r) : form.Takes stored r.1 := by
  cases h with
  | absent =>
    refine ⟨fun _ => rfl, nofun, ?_⟩
    rintro ⟨ty, data, h, -⟩
    cases h
  | wellFormed h hfield =>
    refine ⟨nofun, ?_, fun hmalformed => absurd h (malformed_some.mp hmalformed)⟩
    intro ty data heq _
    obtain ⟨rfl, rfl⟩ := Prod.mk.inj (Option.some.inj heq)
    exact hfield
  | malformed h =>
    refine ⟨nofun, ?_, fun _ => rfl⟩
    intro ty data heq hform
    obtain ⟨rfl, rfl⟩ := Prod.mk.inj (Option.some.inj heq)
    exact absurd hform h

end ValueForm

open ValueForm

/-! ### Each value -/

/-- What `decode` makes of a value. -/
def decodeStored (stored : Stored) : Option Data := stored.map fun v => Data.decode v.1 v.2

/-- Four bytes of the right type are the number they encode. -/
theorem decode_dword {data : Bytes} (h : data.length = 4) :
    Data.decode .DWORD data = .dword (.ofNat (ofLeBytes data)) := by
  apply decode_eq_dword.mpr
  rw [toNat_ofNat_ofLeBytes h, ← h, leBytes_ofLeBytes]
  exact ⟨rfl, rfl⟩

/-- Nothing else is a number. -/
theorem decode_ne_dword {ty : ValueType} {data : Bytes} (h : ¬ (ty = .DWORD ∧ data.length = 4))
    (n : UInt32) : Data.decode ty data ≠ .dword n := by
  intro hdecode
  obtain ⟨rfl, rfl⟩ := decode_eq_dword.mp hdecode
  exact h ⟨rfl, length_leBytes _ _⟩

/-- What is not a number is no precedence. -/
theorem precedenceOf_of_ne {d : Data} (h : ∀ n, d ≠ .dword n) :
    precedenceOf (some d) = (0, true) := by
  cases d with
  | dword n => exact absurd rfl (h n)
  | _ => rfl

theorem reads_precedenceOf (stored : Stored) :
    precedenceForm.Reads stored (precedenceOf (decodeStored stored)) := by
  rcases stored with _ | ⟨ty, data⟩
  · exact .absent
  have hdecode : decodeStored (some (ty, data)) = some (Data.decode ty data) := rfl
  rw [hdecode]
  by_cases h : ty = .DWORD ∧ data.length = 4
  · obtain ⟨rfl, hlen⟩ := h
    rw [decode_dword hlen]
    exact .wellFormed ⟨rfl, hlen⟩ (toNat_ofNat_ofLeBytes hlen)
  · rw [precedenceOf_of_ne (decode_ne_dword h)]
    exact .malformed h

theorem enabledOf_of_ne {d : Data} (h : ∀ n, d ≠ .dword n) : enabledOf (some d) = (true, true) := by
  cases d with
  | dword n => exact absurd rfl (h n)
  | _ => rfl

theorem reads_enabledOf (stored : Stored) :
    enabledForm.Reads stored (enabledOf (decodeStored stored)) := by
  rcases stored with _ | ⟨ty, data⟩
  · exact .absent
  have hdecode : decodeStored (some (ty, data)) = some (Data.decode ty data) := rfl
  rw [hdecode]
  by_cases h : ty = .DWORD ∧ data.length = 4
  · obtain ⟨rfl, hlen⟩ := h
    have hn := toNat_ofNat_ofLeBytes hlen
    have henabled : ∀ n, enabledOf (some (.dword n)) =
        if n = 0 ∨ n = 1 then (decide (n = 1), false) else (true, true) := fun _ => rfl
    have hbit : UInt32.ofNat (ofLeBytes data) = 0 ∨ UInt32.ofNat (ofLeBytes data) = 1 ↔
        ofLeBytes data ≤ 1 := by
      rw [← UInt32.toNat_inj, ← UInt32.toNat_inj, hn]
      exact Nat.le_one_iff_eq_zero_or_eq_one.symm
    rw [decode_dword hlen, henabled]
    by_cases hle : ofLeBytes data ≤ 1
    · rw [if_pos (hbit.mpr hle)]
      refine .wellFormed ⟨rfl, hlen, hle⟩ ?_
      show decide _ = true ↔ _
      rw [decide_eq_true_eq, ← UInt32.toNat_inj, hn]
      rfl
    · rw [if_neg (mt hbit.mp hle)]
      exact .malformed fun hform => hle hform.2.2
  · rw [enabledOf_of_ne (decode_ne_dword h)]
    exact .malformed fun hform => h ⟨hform.1, hform.2.1⟩

theorem ownerOf_of_ne {d : Data} (h : ∀ b, d ≠ .binary b) :
    ownerOf lib (some d) = .ok (none, true) := by
  cases d with
  | binary b => exact absurd rfl (h b)
  | _ => rfl

/-- An owner is always read, if not always as one. -/
theorem reads_ownerOf (lib : SidLib) (stored : Stored) :
    ∃ owner, ownerOf lib (decodeStored stored) = .ok owner ∧ (ownerForm lib).Reads stored owner := by
  rcases stored with _ | ⟨ty, data⟩
  · exact ⟨_, rfl, .absent⟩
  have hdecode : decodeStored (some (ty, data)) = some (Data.decode ty data) := rfl
  rw [hdecode]
  by_cases hty : ty = .BINARY
  · subst hty
    by_cases hvalid : lib.valid data = true
    · have hsid : SidRef.fromBytes lib data = some ⟨data, hvalid⟩ := dif_pos hvalid
      obtain ⟨owned, howned, hbytes⟩ := Sid.fromRef_spec (⟨data, hvalid⟩ : SidRef lib)
      refine ⟨(some owned, false), ?_, .wellFormed ⟨rfl, hvalid⟩ ⟨owned, rfl, hbytes⟩⟩
      rw [decode_eq_binary.mpr ⟨rfl, rfl⟩]
      simp [ownerOf, hsid, howned, pure, Except.pure]
    · have hsid : SidRef.fromBytes lib data = none := dif_neg hvalid
      refine ⟨(none, true), ?_, .malformed fun hform => hvalid hform.2⟩
      rw [decode_eq_binary.mpr ⟨rfl, rfl⟩]
      simp [ownerOf, hsid, pure, Except.pure]
  · have hne : ∀ b, Data.decode ty data ≠ .binary b :=
      fun b hdecode => hty (decode_eq_binary.mp hdecode).1
    exact ⟨(none, true), ownerOf_of_ne hne, .malformed fun hform => hty hform.1⟩

/-! ### The three values -/

/-- What a key holds of a value: a type and data, or nothing. -/
def Stores (key : KeyBody) (value : String) : Stored → Prop
  | none => key.values (utf8 value) = .error ENOENT
  | some (ty, data) => HoldsValue key (utf8 value) ty data

theorem valueOf_of_stores {key : KeyBody} {value : String} {stored : Stored}
    (h : Stores key value stored) : valueOf key value = .ok (decodeStored stored) := by
  rcases stored with _ | ⟨ty, data⟩
  · exact valueOf_eq_none.mpr h
  · obtain ⟨item, hitem, rfl, rfl⟩ := h
    exact valueOf_eq_some.mpr ⟨item, hitem, rfl⟩

/-- The layer's key is there and can be opened. -/
structure CanRead (store : Store fold) (name : String) (key : KeyBody) : Prop where
  no_nul : 0 ∉ utf8 name
  found : ∃ e, store.find? (namedPath fold name) = some e ∧ e.value = key
  opens : key.refuses KeyAccess.QUERY_VALUE = none

/-- **`read` classifies each value by itself**: a layer is malformed exactly when one of its values
is, and each field is what its own value is taken for. -/
theorem read_classifies {key : KeyBody} {precedence enabled owner : Stored} (lib : SidLib)
    (hread : CanRead s.store name key) (hprecedence : Stores key "Precedence" precedence)
    (henabled : Stores key "Enabled" enabled) (howner : Stores key "Owner" owner) :
    ∃ layer, (exec keys (read lib name) s).1 = .ok layer ∧
      (layer.malformed = true ↔ precedenceForm.Malformed precedence ∨
        enabledForm.Malformed enabled ∨ (ownerForm lib).Malformed owner) ∧
      precedenceForm.Takes precedence layer.precedence ∧
      enabledForm.Takes enabled layer.enabled ∧
      (ownerForm lib).Takes owner layer.owner := by
  obtain ⟨e, he, rfl⟩ := hread.found
  obtain ⟨sid, hsid, hsidReads⟩ := reads_ownerOf lib owner
  have hprecedenceReads := reads_precedenceOf precedence
  have henabledReads := reads_enabledOf enabled
  have hlayer : layerOf lib name e.value = .ok
      { name
        precedence := (precedenceOf (decodeStored precedence)).1
        enabled := (enabledOf (decodeStored enabled)).1
        owner := sid.1
        malformed := (precedenceOf (decodeStored precedence)).2 ||
          (enabledOf (decodeStored enabled)).2 || sid.2 } := by
    unfold layerOf
    rw [valueOf_of_stores hprecedence, valueOf_of_stores henabled, valueOf_of_stores howner]
    simp only [ok_bind, hsid]
    rfl
  have hok := readOf_eq_ok.mpr ⟨hread.no_nul, e, he, hread.opens, hlayer⟩
  refine ⟨_, (exec_read lib name s).1.trans hok, ?_, hprecedenceReads.takes, henabledReads.takes,
    hsidReads.takes⟩
  rw [Bool.or_eq_true, Bool.or_eq_true, hprecedenceReads.malformed_iff,
    henabledReads.malformed_iff, hsidReads.malformed_iff, or_assoc]

/-- A key with an owner that is not a SID, and two values that are as they should be. -/
def ownedKey : KeyBody :=
  ((KeyBody.new.write (utf8 "Precedence") .DWORD [7, 0, 0, 0]).write
    (utf8 "Enabled") .DWORD [0, 0, 0, 0]).write (utf8 "Owner") .BINARY [9]

/-- The registry with a layer of these values. -/
def ownedState : State asciiFold where
  store := (withAbove systemStore).insert (layersPath asciiFold)
    (show IsKeyName (utf8 "Owned") by decide).keyName ownedKey
  objects := []

theorem canRead_owned : CanRead ownedState.store "Owned" ownedKey where
  no_nul := by decide
  found := by
    have hfind : ownedState.store.find? (namedPath asciiFold "Owned") = some
        ⟨layersPath asciiFold, (show IsKeyName (utf8 "Owned") by decide).keyName, ownedKey⟩ := by
      rfl
    exact ⟨_, hfind, rfl⟩
  opens := rfl

/-- Its owner alone is malformed, and the rest is read as it is. -/
theorem read_classifies_owned :
    ∃ layer, (exec keys (read sidLayout "Owned") ownedState).1 = .ok layer ∧
      layer.malformed = true ∧ layer.precedence.toNat = 7 ∧ layer.owner = none := by
  have hprecedence : Stores ownedKey "Precedence" (some (.DWORD, [7, 0, 0, 0])) := by
    refine HoldsValue.write_ne (HoldsValue.write_ne ?_ (by decide)) (by decide)
    exact holdsValue_write (by decide)
  have henabled : Stores ownedKey "Enabled" (some (.DWORD, [0, 0, 0, 0])) :=
    HoldsValue.write_ne (holdsValue_write (by decide)) (by decide)
  have howner : Stores ownedKey "Owner" (some (.BINARY, [9])) := holdsValue_write (by decide)
  obtain ⟨layer, hlayer, hmalformed, hprecedenceTakes, -, hownerTakes⟩ :=
    read_classifies sidLayout canRead_owned hprecedence henabled howner
  have hnot : (ownerForm sidLayout).Malformed (some (.BINARY, [9])) :=
    malformed_some.mpr fun h => absurd h.2 (by decide)
  exact ⟨layer, hlayer, hmalformed.mpr (.inr (.inr hnot)),
    hprecedenceTakes.wellFormed _ _ rfl ⟨rfl, rfl⟩, hownerTakes.malformed hnot⟩

end Peios.Registry.Layers
