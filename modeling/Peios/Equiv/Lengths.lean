import Peios.Access
import Peios.Registry.Equiv.SizedRead

/-!
# Lengths passed to libpeios

Several functions hand libpeios a slice as a pointer and a length cast to 32 bits.  `KeepsLengths`
says of such a function that every length it passes is that of the slice it was given, or that it
refuses with `EINVAL` before any call.  `keepsLengths_iff` says for which slices that holds.
-/

namespace Peios

open Interaction ByteString Registry Security Access

section

variable {C : Type} {R : C → Type} {ρ : Type}

/-- Against every handler, the function makes calls and each passes the lengths `given`, or it makes
none and returns `refused`. -/
def KeepsLengths (lengths : C → List Nat) (given : List Nat) (refused : ρ) (p : Prog C R ρ) : Prop :=
  ∀ (σ : Type) (h : Handler C R σ) (s : σ),
    (p.calls h s ≠ [] ∧ ∀ c ∈ p.calls h s, lengths c = given) ∨
    (p.calls h s = [] ∧ (p.run h s).1 = refused)

/-- A function that makes calls, all of which pass the same lengths. -/
theorem keepsLengths_of_calls {lengths : C → List Nat} {given passed : List Nat} {refused : ρ}
    {p : Prog C R ρ} (h₀ : Handler C R Unit)
    (hcalls : ∀ (σ : Type) (h : Handler C R σ) (s : σ),
      p.calls h s ≠ [] ∧ ∀ c ∈ p.calls h s, lengths c = passed) :
    KeepsLengths lengths given refused p ↔ passed = given := by
  constructor
  · intro hkeeps
    obtain ⟨hne, hpassed⟩ := hcalls Unit h₀ ()
    obtain ⟨c, hc⟩ := List.exists_mem_of_ne_nil _ hne
    rcases hkeeps Unit h₀ () with ⟨_, hgiven⟩ | ⟨hnil, _⟩
    · rw [← hpassed c hc, hgiven c hc]
    · exact absurd hnil hne
  · rintro rfl
    intro σ h s
    exact .inl (hcalls σ h s)

/-- A function that refuses before any call. -/
theorem keepsLengths_ret (lengths : C → List Nat) (given : List Nat) (refused : ρ) :
    KeepsLengths lengths given refused (.ret refused : Prog C R ρ) :=
  fun _ _ _ => .inr ⟨rfl, rfl⟩

end

/-- Casting lengths to 32 bits keeps them exactly when they fit. -/
theorem map_mod_eq_self {given : List Nat} :
    given.map (· % 2 ^ 32) = given ↔ ∀ n ∈ given, n < 2 ^ 32 := by
  induction given with
  | nil => simp
  | cons n given ih =>
    rw [List.map_cons, List.cons.injEq, ih, List.forall_mem_cons,
      Nat.mod_eq_iff_lt (by norm_num)]

/-! ### The registry -/

namespace Registry

/-- The lengths a call passes, in the order of its arguments. -/
def RegCall.lengths : RegCall → List Nat
  | .queryValue _ name _ _ => [name.length]
  | .setValue _ name _ data layer _ _ =>
    name.length :: data.length :: layer.toList.map List.length
  | .deleteValue _ name layer _ => name.length :: layer.toList.map List.length
  | .blanketTombstone _ layer _ _ | .deleteKey _ layer _ | .hideKey _ layer _ =>
    layer.toList.map List.length
  | _ => []

/-- The length of a layer's name, if one is given. -/
def layerLength (layer : Option String) : List Nat :=
  layer.toList.map fun l => (utf8 l).length

/-- The lengths of the slices a value is set with. -/
def SetValue.given (v : SetValue) : List Nat :=
  v.name.length :: v.data.length :: layerLength v.layer

theorem length_bytesU32 (b : Bytes) : (bytesU32 b).length = b.length % 2 ^ 32 :=
  length_entriesU32 b

theorem lengths_optLayer (layer : Option String) :
    (optLayer layer).toList.map List.length = (layerLength layer).map (· % 2 ^ 32) := by
  cases layer with
  | none => rfl
  | some l =>
    show [(bytesU32 (utf8 l)).length] = _
    rw [length_bytesU32]
    rfl

/-- A function that is one call, with its lengths cast to 32 bits. -/
theorem keepsLengths_sys {c : RegCall} {given : List Nat}
    (hc : c.lengths = given.map (· % 2 ^ 32)) (refused : RegReply c) :
    KeepsLengths RegCall.lengths given refused (sys c) ↔ ∀ n ∈ given, n < 2 ^ 32 := by
  rw [← map_mod_eq_self, ← hc]
  apply keepsLengths_of_calls fun c s => (RegReply.failed 0 c, s)
  intro σ h s
  have hcalls : (sys c).calls h s = [c] := rfl
  rw [hcalls]
  exact ⟨List.cons_ne_nil _ _, by simp⟩

/-- `SetValue::call` refuses a layer name that holds a NUL, and casts the lengths otherwise. -/
theorem keepsLengths_setValue (v : SetValue) :
    KeepsLengths RegCall.lengths v.given (.error EINVAL) v.call ↔
      (∃ l, v.layer = some l ∧ 0 ∈ utf8 l) ∨ ∀ n ∈ v.given, n < 2 ^ 32 := by
  unfold SetValue.call
  by_cases h0 : ∃ l, v.layer = some l ∧ 0 ∈ utf8 l
  · obtain ⟨l, hl, h0⟩ := h0
    have hnew : CString.newOption v.layer = .error EINVAL := by
      rw [hl, CString.newOption, CString.new, dif_pos h0]
      rfl
    rw [hnew]
    exact iff_of_true (keepsLengths_ret _ _ _) (.inl ⟨l, hl, h0⟩)
  · rw [or_iff_right h0]
    obtain ⟨clayer, hnew, hlen⟩ : ∃ clayer, CString.newOption v.layer = .ok clayer ∧
        (clayer.map fun c => bytesU32 c.bytes) = optLayer v.layer := by
      cases hl : v.layer with
      | none => exact ⟨none, rfl, rfl⟩
      | some l =>
        have h0 : 0 ∉ utf8 l := fun hmem => h0 ⟨l, hl, hmem⟩
        refine ⟨some ⟨utf8 l, h0⟩, ?_, rfl⟩
        rw [CString.newOption, CString.new, dif_neg h0]
        rfl
    rw [hnew]
    apply keepsLengths_sys
    rw [RegCall.lengths, hlen, length_bytesU32, length_bytesU32, lengths_optLayer]
    rfl

/-- Every call of `Key::query_value` passes the name. -/
theorem keepsLengths_queryValue (key : Key) (name : Bytes) (txn : Option Transaction) :
    KeepsLengths RegCall.lengths [name.length] (.error EINVAL) (key.queryValue name txn) ↔
      ∀ n ∈ [name.length], n < 2 ^ 32 := by
  rw [← map_mod_eq_self]
  apply keepsLengths_of_calls fun c s => (RegReply.failed 0 c, s)
  intro σ h s
  constructor
  · exact List.cons_ne_nil _ _
  · intro c hc
    obtain ⟨ev, hev, rfl⟩ := List.mem_map.mp hc
    apply sizedRead_trace (P := fun c => c.lengths = [name.length].map (· % 2 ^ 32)) _ _ _ _ s ev hev
    intro w s ev hev
    obtain rfl := List.mem_singleton.mp hev
    show [(bytesU32 name).length] = _
    rw [length_bytesU32]
    rfl

end Registry

/-! ### Sub-authorities and object trees -/

/-- The lengths a call passes. -/
def Security.SidCall.lengths : SidCall → List Nat
  | .build _ _ subAuths => [subAuths.length]

/-- The lengths a call passes: the count of the request, and that of the results. -/
def Access.AccessCall.lengths : AccessCall → List Nat
  | .check req => [req.objectTree.length]
  | .checkList req _ count => [req.objectTree.length, count.toNat]

theorem keepsLengths_build (lib : SidLib) (idAuthority : UInt64) (subAuths : List UInt32) :
    KeepsLengths SidCall.lengths [subAuths.length] (.error (.errno EINVAL))
      (Sid.build lib idAuthority subAuths).run ↔ ∀ n ∈ [subAuths.length], n < 2 ^ 32 := by
  rw [← map_mod_eq_self]
  apply keepsLengths_of_calls fun _ s => (.error EINVAL, s)
  intro σ h s
  have hcalls : (Sid.build lib idAuthority subAuths).run.calls h s
      = [.build (Sid.MAX_LEN lib) idAuthority (entriesU32 subAuths)] := rfl
  rw [hcalls]
  refine ⟨List.cons_ne_nil _ _, ?_⟩
  intro c hc
  obtain rfl := List.mem_singleton.mp hc
  show [(entriesU32 subAuths).length] = _
  rw [length_entriesU32]
  rfl

theorem keepsLengths_checkList {lib : SidLib} (a : AccessCheck lib)
    (objectTree : List ObjectTypeEntry) :
    KeepsLengths AccessCall.lengths [objectTree.length, objectTree.length] (.error EINVAL)
      (a.checkList objectTree) ↔ ∀ n ∈ [objectTree.length, objectTree.length], n < 2 ^ 32 := by
  rw [← map_mod_eq_self]
  apply keepsLengths_of_calls fun
    | .check _, s => ((none, 0), s)
    | .checkList .., s => (.error EINVAL, s)
  intro σ h s
  have hcalls : (a.checkList objectTree).calls h s
      = [.checkList (a.buildRequest (entriesU32 objectTree))
          (.replicate objectTree.length { granted := 0, status := 0 })
          (.ofNat objectTree.length)] := rfl
  rw [hcalls]
  refine ⟨List.cons_ne_nil _ _, ?_⟩
  intro c hc
  obtain rfl := List.mem_singleton.mp hc
  show [(entriesU32 objectTree).length, (UInt32.ofNat objectTree.length).toNat] = _
  rw [length_entriesU32, UInt32.toNat_ofNat']
  rfl

/-- **A length is passed as it is exactly when it fits 32 bits**: for the registry's writes and
lookups, for `Sid::build` and for `AccessCheck::check_list`.  Only `SetValue::call` can refuse
before any call, and does so for a layer name that holds a NUL. -/
theorem keepsLengths_iff (lib : SidLib) :
    (∀ v : SetValue, KeepsLengths RegCall.lengths v.given (.error EINVAL) v.call ↔
      (∃ l, v.layer = some l ∧ 0 ∈ utf8 l) ∨ ∀ n ∈ v.given, n < 2 ^ 32) ∧
    (∀ (key : Key) (name : Bytes) (txn : Option Transaction),
      KeepsLengths RegCall.lengths [name.length] (.error EINVAL) (key.queryValue name txn) ↔
        ∀ n ∈ [name.length], n < 2 ^ 32) ∧
    (∀ (key : Key) (name : Bytes) (layer : Option String) (txn : Option Transaction),
      KeepsLengths RegCall.lengths (name.length :: layerLength layer) (.error EINVAL)
        (key.deleteValue name layer txn) ↔ ∀ n ∈ name.length :: layerLength layer, n < 2 ^ 32) ∧
    (∀ (key : Key) (layer : Option String) (set : Bool) (txn : Option Transaction),
      (KeepsLengths RegCall.lengths (layerLength layer) (.error EINVAL) (key.deleteKey layer txn) ↔
        ∀ n ∈ layerLength layer, n < 2 ^ 32) ∧
      (KeepsLengths RegCall.lengths (layerLength layer) (.error EINVAL) (key.hideKey layer txn) ↔
        ∀ n ∈ layerLength layer, n < 2 ^ 32) ∧
      (KeepsLengths RegCall.lengths (layerLength layer) (.error EINVAL)
        (key.blanketTombstone layer set txn) ↔ ∀ n ∈ layerLength layer, n < 2 ^ 32)) ∧
    (∀ (idAuthority : UInt64) (subAuths : List UInt32),
      KeepsLengths SidCall.lengths [subAuths.length] (.error (.errno EINVAL))
        (Sid.build lib idAuthority subAuths).run ↔ ∀ n ∈ [subAuths.length], n < 2 ^ 32) ∧
    ∀ (a : AccessCheck lib) (objectTree : List ObjectTypeEntry),
      KeepsLengths AccessCall.lengths [objectTree.length, objectTree.length] (.error EINVAL)
        (a.checkList objectTree) ↔
          ∀ n ∈ [objectTree.length, objectTree.length], n < 2 ^ 32 := by
  refine ⟨keepsLengths_setValue, keepsLengths_queryValue, ?_, ?_, keepsLengths_build lib,
    keepsLengths_checkList⟩
  · intro key name layer txn
    apply keepsLengths_sys
    rw [RegCall.lengths, length_bytesU32, lengths_optLayer]
    rfl
  · intro key layer set txn
    refine ⟨?_, ?_, ?_⟩
    · exact keepsLengths_sys (c := .deleteKey key _ txn) (lengths_optLayer layer) _
    · exact keepsLengths_sys (c := .hideKey key _ txn) (lengths_optLayer layer) _
    · exact keepsLengths_sys (c := .blanketTombstone key _ set txn) (lengths_optLayer layer) _

/-- A registry that accepts every write. -/
def accepting : Handler RegCall RegReply Unit
  | .setValue .., s => (.ok (), s)
  | c, s => (RegReply.failed EINVAL c, s)

theorem setValue_four_gib {data : Bytes} (hdata : data.length = 4294967296) :
    ¬ KeepsLengths RegCall.lengths (Key.setValue 0 [] .BINARY data).given (.error EINVAL)
      (Key.setValue 0 [] .BINARY data).call ∧
    (Key.setValue 0 [] .BINARY data).call.calls accepting ()
      = [.setValue 0 [] .BINARY [] none none 0] ∧
    ((Key.setValue 0 [] .BINARY data).call.run accepting ()).1 = .ok () := by
  have hcut : bytesU32 data = [] := by
    unfold bytesU32
    rw [hdata]
    rfl
  refine ⟨?_, ?_, rfl⟩
  · rw [keepsLengths_setValue]
    rintro (⟨l, hl, _⟩ | hfits)
    · cases hl
    · have hlt := hfits data.length (by simp [SetValue.given, Key.setValue])
      omega
  · show [RegCall.setValue 0 (bytesU32 []) .BINARY (bytesU32 data) none none 0] = _
    rw [hcut]
    rfl

/-- Four GiB of data are stored as none. -/
theorem not_keepsLengths_four_gib :
    ¬ KeepsLengths RegCall.lengths
      (Key.setValue 0 [] .BINARY (List.replicate 4294967296 0)).given (.error EINVAL)
      (Key.setValue 0 [] .BINARY (List.replicate 4294967296 0)).call ∧
    (Key.setValue 0 [] .BINARY (List.replicate 4294967296 0)).call.calls accepting ()
      = [.setValue 0 [] .BINARY [] none none 0] ∧
    ((Key.setValue 0 [] .BINARY (List.replicate 4294967296 0)).call.run accepting ()).1
      = .ok () :=
  setValue_four_gib List.length_replicate

end Peios
