import Mathlib.Data.List.Sort
import Peios.Registry.Data
import Peios.Registry.DeleteTree
import Peios.Security.Sid

/-!
# Layers

The functions that read and change layers (`peios/src/registry/layers.rs`), over the methods of
`Key`.  Each layer is a key under `LAYERS` named for it.

`str::to_lowercase` is the argument `lower`: what it does to a string depends on Unicode's tables.
-/

namespace Peios.Registry.Layers

open ByteString Security

/-- `LAYERS`: the key that holds a key for each layer. -/
def LAYERS : String := "Machine\\System\\Registry\\Layers"

/-- `LAYERS_FROM`: `LAYERS` as a key that is always there and the keys under it on the way. -/
def LAYERS_FROM : String × List String := ("Machine\\System", ["Registry", "Layers"])

/-- `BASE`: the layer a write goes to when it names none. -/
def BASE : String := "base"

/-- `CreateFlags::empty()` and `OpenFlags::empty()`. -/
def noFlags : UInt32 := 0

section

variable (lower : String → String)

/-- `is_base`. -/
def isBase (name : String) : Bool := lower name = BASE

theorem isBase_eq_true {lower : String → String} {name : String} :
    isBase lower name = true ↔ lower name = BASE := decide_eq_true_iff

theorem isBase_eq_false {lower : String → String} {name : String} :
    isBase lower name = false ↔ lower name ≠ BASE := decide_eq_false_iff_not

/-- `open`: the key of the layer `name`. -/
def openLayer (name : String) (access : UInt32) : KeyProg Key :=
  (KeyCall.open none (LAYERS ++ "\\" ++ name) access noFlags).ask

/-! ### Reading -/

/-- `Layer`: a layer, as its metadata key says. -/
structure Layer where
  name : String
  precedence : UInt32
  enabled : Bool
  owner : Option Sid
  malformed : Bool
  deriving DecidableEq

/-- The closure `value` of `read`. -/
def queryValue (key : Key) (value : String) : KeyProg (Option Data) := do
  match ← (KeyCall.queryValue key (utf8 value) none).attempt with
  | .ok value => return some (Data.decode value.ty value.data)
  | .error e => if e = ENOENT then return none else KeyProg.err e

/-- The precedence that `Precedence` says, and whether that is malformed. -/
def precedenceOf : Option Data → UInt32 × Bool
  | some (.dword precedence) => (precedence, false)
  | none => (0, false)
  | some _ => (0, true)

/-- What `Enabled` says, and whether that is malformed. -/
def enabledOf : Option Data → Bool × Bool
  | some (.dword enabled) => if enabled = 0 ∨ enabled = 1 then (enabled = 1, false) else (true, true)
  | none => (true, false)
  | some _ => (true, true)

/-- The owner that `Owner` says, and whether that is malformed. -/
def ownerOf (lib : SidLib) : Option Data → Outcome (Option Sid × Bool)
  | some (.binary bytes) =>
    match SidRef.fromBytes lib bytes with
    | some sid => do return (some (← Sid.fromRef sid), false)
    | none => return (none, true)
  | none => return (none, false)
  | some _ => return (none, true)

/-- `read`. -/
def read (lib : SidLib) (name : String) : KeyProg Layer := do
  let key ← openLayer name KeyAccess.QUERY_VALUE
  -- each value is asked for once the one before it has been read
  let (precedence, malformed₁) := precedenceOf (← queryValue key "Precedence")
  let (enabled, malformed₂) := enabledOf (← queryValue key "Enabled")
  let (owner, malformed₃) ← ExceptT.mk (pure (ownerOf lib (← queryValue key "Owner")))
  return { name, precedence, enabled, owner, malformed := malformed₁ || malformed₂ || malformed₃ }

/-- The names of the keys under `LAYERS`, from at most `rounds` calls of `next`. -/
def layerNames (rounds : Nat) : KeyProg (List String) := do
  match ← (KeyCall.open none LAYERS KeyAccess.ENUMERATE_SUB_KEYS noFlags).attempt with
  | .ok layers =>
    let names ← (layers.subkeys none).collectNames rounds []
    return names.map fromUtf8Lossy
  -- there are no layers but the base layer
  | .error e => if e = ENOENT then return [] else KeyProg.err e

/-- The base layer, as `list` has it. -/
def baseLayer : Layer :=
  { name := BASE, precedence := 0, enabled := true, owner := none, malformed := false }

/-- The order of `list`: the highest precedence first and then by name. -/
def Layer.Before (a b : Layer) : Prop :=
  b.precedence < a.precedence ∨
    b.precedence = a.precedence ∧ utf8 (lower a.name) ≤ utf8 (lower b.name)

instance : DecidableRel (Layer.Before lower) :=
  fun _ _ => inferInstanceAs (Decidable (_ ∨ _ ∧ _))

/-- `list`. -/
def list (lib : SidLib) (rounds : Nat) : KeyProg (List Layer) := do
  let names ← layerNames rounds
  let layers ← names.mapM (read lib)
  -- the base layer is the kernel's whatever its key says
  return (layers.filter (fun layer => ¬ isBase lower layer.name) ++ [baseLayer]).insertionSort
    (Layer.Before lower)

/-! ### Changing -/

/-- `set`. -/
def set (name value : String) (ty : ValueType) (data : Bytes) : KeyProg Unit := do
  if isBase lower name then KeyProg.err EINVAL
  else
    let key ← openLayer name KeyAccess.SET_VALUE
    (KeyCall.setValue (key.setValue (utf8 value) ty data)).ask

/-- `set_precedence`. -/
def setPrecedence (name : String) (precedence : UInt32) : KeyProg Unit :=
  set lower name "Precedence" .DWORD (leBytes 4 precedence.toNat)

/-- `set_enabled`. -/
def setEnabled (name : String) (enabled : Bool) : KeyProg Unit :=
  set lower name "Enabled" .DWORD (leBytes 4 enabled.toNat)

/-- `set_owner`, with the bytes of the owner's SID. -/
def setOwner (name : String) (owner : Bytes) : KeyProg Unit :=
  set lower name "Owner" .BINARY owner

/-- `delete`. -/
def delete (name : String) : KeyProg Unit := do
  if isBase lower name then KeyProg.err EINVAL
  else
    let key ← openLayer name KeyAccess.DELETE
    (KeyCall.deleteKey key none none).ask

/-- `LAYERS`, made in the transaction if it is not there. -/
def openLayers (txn : Transaction) : KeyProg Key := do
  match ← (KeyCall.open none LAYERS KeyAccess.CREATE_SUB_KEY noFlags).attempt with
  | .ok layers => return layers
  | .error e =>
    if e = ENOENT then
      -- the first layer: the keys above it are made, from the one that is always there
      let key ← (KeyCall.open none LAYERS_FROM.1 KeyAccess.CREATE_SUB_KEY noFlags).ask
      LAYERS_FROM.2.foldlM (fun key part => do
        let made ← (KeyCall.create (some key) part KeyAccess.CREATE_SUB_KEY noFlags none
          (some txn)).ask
        return made.1) key
    else KeyProg.err e

/-- `create`. -/
def create (name : String) (precedence : UInt32) (enabled : Bool) : KeyProg Unit := do
  if isBase lower name ∨ name = "" ∨ '\\' ∈ name.toList ∨ '/' ∈ name.toList then
    KeyProg.err EINVAL
  else
    let txn ← KeyCall.begin.ask
    let layers ← openLayers txn
    let (key, made) ← (KeyCall.create (some layers) name KeyAccess.SET_VALUE noFlags none
      (some txn)).ask
    if made = .openedExisting then KeyProg.err EEXIST
    else
      (KeyCall.setValue ((key.setValue (utf8 "Precedence") .DWORD
        (leBytes 4 precedence.toNat)).inTxn txn)).ask
      (KeyCall.setValue ((key.setValue (utf8 "Enabled") .DWORD
        (leBytes 4 enabled.toNat)).inTxn txn)).ask
      (KeyCall.commit txn).ask

end

end Peios.Registry.Layers
