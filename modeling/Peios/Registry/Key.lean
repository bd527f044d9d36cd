import Peios.Interaction.Path
import Peios.Registry.Call

/-!
# Keys and transactions

The methods of `Key`, `SetValue` and `Transaction` (`peios/src/registry.rs`), as programs over the
calls of libpeios.  The four reads that fill output windows are one loop, `sizedRead`: it asks
with empty windows, makes them as large as a failed call says they must be, and gives up after four
calls.  `Key::get_security` asks for the size first, and then reads in the same loop.

The rest of the module is the signature the functions built on these methods are written over:
`KeyCall` has a constructor for each method and `KeyCall.impl` the method's program, so that
`Prog.interp KeyCall.impl` is a function's program over the calls of libpeios.
-/

namespace Peios.Registry

open Interaction ByteString

/-- A program over the calls of libpeios. -/
abbrev RegProg := Prog RegCall RegReply

/-- Make a call of libpeios. -/
def sys (c : RegCall) : RegProg (RegReply c) := .lift c

/-- An open key. -/
abbrev Key := Fd

/-- A transaction. -/
abbrev Transaction := Fd

/-! ### Opening keys -/

/-- How `Key::create` came by its key. -/
inductive Disposition where
  | createdNew
  | openedExisting
  deriving DecidableEq, Repr

/-- `Disposition::from_raw`. -/
def Disposition.fromRaw (v : UInt32) : Disposition :=
  if v = REG_OPENED_EXISTING then openedExisting else createdNew

/-- `Key::open`. -/
def Key.open (parent : Option Key) (path : String) (access flags : UInt32) :
    RegProg (Except Errno Key) :=
  match CString.new path with
  | .error e => return .error e
  | .ok cpath => sys (.openKey parent cpath access flags)

/-- `CString::new` under an `Option`. -/
def CString.newOption : Option String → Except Errno (Option CString)
  | none => .ok none
  | some l => (CString.new l).map some

/-- `Key::create`. -/
def Key.create (parent : Option Key) (path : String) (access flags : UInt32)
    (layer : Option String) (txn : Option Transaction) :
    RegProg (Except Errno (Key × Disposition)) :=
  match CString.new path with
  | .error e => return .error e
  | .ok cpath =>
    match CString.newOption layer with
    | .error e => return .error e
    | .ok clayer => do
      let r : Except Errno (Fd × UInt32) ← sys (.createKey parent cpath access flags clayer txn)
      return r.map fun made => (made.1, .fromRaw made.2)

/-! ### Sized reads -/

/-- The loop of the reads that fill output windows, for `rounds` more calls.  `ask` makes the call
with the windows it is given; `onOk` builds the result from the descriptor's other fields and the
windows, cut to the lengths reported; `onErr` says what an `errno` other than `ERANGE` becomes. -/
def sizedRead.loop {n : Nat} {α β : Type} (ask : (Fin n → Bytes) → RegProg (WindowReply n α))
    (onOk : α → (Fin n → Bytes) → β) (onErr : Errno → Except Errno β) :
    Nat → (Fin n → Bytes) → RegProg (Except Errno β)
  | 0, _ => return .error ERANGE
  | rounds + 1, windows => do
    let v ← ask windows
    match v.errno with
    | none => return .ok (onOk v.fields fun i => (v.windows i).take (v.lens i).toNat)
    | some e =>
      if e = ERANGE then
        sizedRead.loop ask onOk onErr rounds fun i => List.replicate (v.lens i).toNat 0
      else return onErr e

/-- A read that fills output windows: at most four calls, the first with empty windows. -/
def sizedRead {n : Nat} {α β : Type} (ask : (Fin n → Bytes) → RegProg (WindowReply n α))
    (onOk : α → (Fin n → Bytes) → β) (onErr : Errno → Except Errno β) :
    RegProg (Except Errno β) :=
  sizedRead.loop ask onOk onErr 4 fun _ => []

/-- What `Key::query_value` returns. -/
structure RegValue where
  sequence : UInt64
  ty : ValueType
  data : Bytes
  /-- The name of the layer the effective entry came from. -/
  layer : Bytes
  deriving DecidableEq

/-- What `Key::enum_value` returns. -/
structure EnumValue where
  name : Bytes
  ty : ValueType
  data : Bytes
  deriving DecidableEq

/-- What `Key::enum_subkey` returns. -/
structure Subkey where
  name : Bytes
  lastWriteTime : UInt64
  subkeyCount : UInt32
  valueCount : UInt32
  deriving DecidableEq

/-- What `Key::info` returns. -/
structure KeyInfo where
  name : Bytes
  lastWriteTime : UInt64
  hiveGeneration : UInt64
  subkeyCount : UInt32
  valueCount : UInt32
  maxSubkeyNameLen : UInt32
  maxValueNameLen : UInt32
  maxValueDataSize : UInt32
  sdSize : UInt32
  volatile : Bool
  symlink : Bool
  deriving DecidableEq

/-- The value a filled `peios_reg_value` describes. -/
def RegValue.ofWindows (v : ValueFields) (w : Fin 2 → Bytes) : RegValue :=
  { sequence := v.sequence, ty := v.ty, data := w 0, layer := w 1 }

/-- The entry a filled `peios_reg_enum_value` describes. -/
def EnumValue.ofWindows (ty : ValueType) (w : Fin 2 → Bytes) : EnumValue :=
  { name := w 0, ty, data := w 1 }

/-- The entry a filled `peios_reg_subkey` describes. -/
def Subkey.ofWindows (v : SubkeyFields) (w : Fin 1 → Bytes) : Subkey :=
  { name := w 0, lastWriteTime := v.lastWriteTime, subkeyCount := v.subkeyCount,
    valueCount := v.valueCount }

/-- The metadata a filled `peios_reg_key_info` describes. -/
def KeyInfo.ofWindows (v : KeyInfoFields) (w : Fin 1 → Bytes) : KeyInfo :=
  { name := w 0, lastWriteTime := v.lastWriteTime, hiveGeneration := v.hiveGeneration,
    subkeyCount := v.subkeyCount, valueCount := v.valueCount,
    maxSubkeyNameLen := v.maxSubkeyNameLen, maxValueNameLen := v.maxValueNameLen,
    maxValueDataSize := v.maxValueDataSize, sdSize := v.sdSize,
    volatile := v.volatileKey ≠ 0, symlink := v.symlink ≠ 0 }

/-- The length a call with one window reports. -/
def WindowReply.len {α : Type} (v : WindowReply 1 α) : UInt32 := v.lens 0

/-- The window of a call that has one, cut to the length reported. -/
def WindowReply.filled {α : Type} (v : WindowReply 1 α) : Bytes :=
  (v.windows 0).take (v.lens 0).toNat

/-- The enumerations end at an index past the last entry. -/
def noneOnENOENT {α : Type} (e : Errno) : Except Errno (Option α) :=
  if e = ENOENT then .ok none else .error e

/-- `Key::query_value`. -/
def Key.queryValue (key : Key) (name : Bytes) (txn : Option Transaction) :
    RegProg (Except Errno RegValue) :=
  sizedRead (fun w => sys (.queryValue key (bytesU32 name) txn w)) RegValue.ofWindows .error

/-- `Key::enum_value`. -/
def Key.enumValue (key : Key) (index : UInt32) (txn : Option Transaction) :
    RegProg (Except Errno (Option EnumValue)) :=
  sizedRead (fun w => sys (.enumValue key index txn w))
    (fun ty w => some (EnumValue.ofWindows ty w)) noneOnENOENT

/-- `Key::enum_subkey`. -/
def Key.enumSubkey (key : Key) (index : UInt32) (txn : Option Transaction) :
    RegProg (Except Errno (Option Subkey)) :=
  sizedRead (fun w => sys (.enumSubkey key index txn w))
    (fun v w => some (Subkey.ofWindows v w)) noneOnENOENT

/-- `Key::info`. -/
def Key.info (key : Key) : RegProg (Except Errno KeyInfo) :=
  sizedRead (fun w => sys (.queryKeyInfo key w)) KeyInfo.ofWindows .error

/-- The rounds of `Key::get_security`, the first with a buffer of `cap` bytes.  A descriptor keeps
the bytes it is made from. -/
def Key.readSecurity (key : Key) (secinfo : UInt32) (cap : UInt32) : RegProg (Except Errno Bytes) :=
  sizedRead.loop (fun w => sys (.getSecurity key secinfo (.buf (w 0)))) (fun _ w => w 0) .error 4
    fun _ => List.replicate cap.toNat 0

/-- `Key::get_security`. -/
def Key.getSecurity (key : Key) (secinfo : UInt32) : RegProg (Except Errno Bytes) := do
  let probe : WindowReply 1 Unit ← sys (.getSecurity key secinfo .null)
  match probe.errno with
  | none => key.readSecurity secinfo probe.len
  -- the call has no buffer, so it may say that one is needed
  | some e => if e = ERANGE then key.readSecurity secinfo probe.len else return .error e

/-! ### Writes -/

/-- The builder `Key::set_value` starts. -/
structure SetValue where
  key : Key
  name : Bytes
  ty : ValueType
  data : Bytes
  layer : Option String
  expectedSeq : UInt64
  txn : Option Transaction
  deriving DecidableEq

/-- `Key::set_value`. -/
def Key.setValue (key : Key) (name : Bytes) (ty : ValueType) (data : Bytes) : SetValue :=
  { key, name, ty, data, layer := none, expectedSeq := 0, txn := none }

/-- `SetValue::in_txn`. -/
def SetValue.inTxn (v : SetValue) (txn : Transaction) : SetValue := { v with txn := some txn }

/-- `SetValue::call`. -/
def SetValue.call (v : SetValue) : RegProg (Except Errno Unit) :=
  match CString.newOption v.layer with
  | .error e => return .error e
  | .ok clayer =>
    sys (.setValue v.key (bytesU32 v.name) v.ty (bytesU32 v.data)
      (clayer.map fun c => bytesU32 c.bytes) v.txn v.expectedSeq)

/-- `Key::delete_value`. -/
def Key.deleteValue (key : Key) (name : Bytes) (layer : Option String)
    (txn : Option Transaction) : RegProg (Except Errno Unit) :=
  sys (.deleteValue key (bytesU32 name) (optLayer layer) txn)

/-- `Key::blanket_tombstone`. -/
def Key.blanketTombstone (key : Key) (layer : Option String) (set : Bool)
    (txn : Option Transaction) : RegProg (Except Errno Unit) :=
  sys (.blanketTombstone key (optLayer layer) set txn)

/-- `Key::delete_key`. -/
def Key.deleteKey (key : Key) (layer : Option String) (txn : Option Transaction) :
    RegProg (Except Errno Unit) :=
  sys (.deleteKey key (optLayer layer) txn)

/-- `Key::hide_key`. -/
def Key.hideKey (key : Key) (layer : Option String) (txn : Option Transaction) :
    RegProg (Except Errno Unit) :=
  sys (.hideKey key (optLayer layer) txn)

/-- `Transaction::begin`. -/
def Transaction.begin : RegProg (Except Errno Transaction) := sys .beginTransaction

/-- `Transaction::commit`. -/
def Transaction.commit (txn : Transaction) : RegProg (Except Errno Unit) := sys (.commit txn)

/-! ### Methods as calls -/

/-- A call of one of the methods above. -/
inductive KeyCall where
  | begin
  | commit (txn : Transaction)
  | open (parent : Option Key) (path : String) (access flags : UInt32)
  | create (parent : Option Key) (path : String) (access flags : UInt32)
      (layer : Option String) (txn : Option Transaction)
  | queryValue (key : Key) (name : Bytes) (txn : Option Transaction)
  | enumValue (key : Key) (index : UInt32) (txn : Option Transaction)
  | enumSubkey (key : Key) (index : UInt32) (txn : Option Transaction)
  | setValue (v : SetValue)
  | deleteKey (key : Key) (layer : Option String) (txn : Option Transaction)

/-- What a method returns when it succeeds. -/
abbrev KeyCall.Value : KeyCall → Type
  | .begin => Transaction
  | .commit _ => Unit
  | .open .. => Key
  | .create .. => Key × Disposition
  | .queryValue .. => RegValue
  | .enumValue .. => Option EnumValue
  | .enumSubkey .. => Option Subkey
  | .setValue _ => Unit
  | .deleteKey .. => Unit

/-- What a method returns. -/
abbrev KeyReply (c : KeyCall) : Type := Except Errno c.Value

/-- The program behind each method. -/
def KeyCall.impl : (c : KeyCall) → RegProg (KeyReply c)
  | .begin => Transaction.begin
  | .commit txn => txn.commit
  | .open parent path access flags => Key.open parent path access flags
  | .create parent path access flags layer txn => Key.create parent path access flags layer txn
  | .queryValue key name txn => key.queryValue name txn
  | .enumValue key index txn => key.enumValue index txn
  | .enumSubkey key index txn => key.enumSubkey index txn
  | .setValue v => v.call
  | .deleteKey key layer txn => key.deleteKey layer txn

/-- A function over these methods: it can return an `Err`, panic, or run out of rounds. -/
abbrev KeyProg := ExceptT Fault (Prog KeyCall KeyReply)

/-- Call a method and return its error, as `?` does. -/
def KeyCall.ask (c : KeyCall) : KeyProg c.Value :=
  ExceptT.mk (ofResult <$> (Prog.lift c : Prog KeyCall KeyReply (KeyReply c)))

/-- Call a method and look at what it returned. -/
def KeyCall.attempt (c : KeyCall) : KeyProg (Except Errno c.Value) :=
  ExceptT.mk (Except.ok <$> (Prog.lift c : Prog KeyCall KeyReply (KeyReply c)))

/-- `return Err(Error::from_raw_os_error(e))`. -/
def KeyProg.err {α : Type} (e : Errno) : KeyProg α := throw (.errno e)

/-! ### Running functions over the methods -/

open Prog

theorem exec_ask {σ : Type} (h : Handler KeyCall KeyReply σ) (c : KeyCall) (s : σ) :
    exec h c.ask s = (ofResult (h c s).1, (h c s).2) := rfl

theorem exec_attempt {σ : Type} (h : Handler KeyCall KeyReply σ) (c : KeyCall) (s : σ) :
    exec h c.attempt s = (.ok (h c s).1, (h c s).2) := rfl

theorem events_ask {σ : Type} (h : Handler KeyCall KeyReply σ) (c : KeyCall) (s : σ) :
    events h c.ask s = [⟨c, (h c s).1⟩] := rfl

/-- A path of a call is its answer. -/
theorem ask_inv {c : KeyCall} {evs : List (Event KeyCall KeyReply)} {r : Except Fault c.Value}
    (h : PathE c.ask evs r) : ∃ a : KeyReply c, evs = [⟨c, a⟩] ∧ r = ofResult a := by
  have h : Path (Prog.lift c >>= fun a => Prog.ret (ofResult a)) evs r := h
  obtain ⟨a, evs₁, evs₂, rfl, h₁, h₂⟩ := h.bind_inv
  obtain rfl := h₁.lift_inv
  obtain ⟨rfl, rfl⟩ := h₂.ret_inv
  exact ⟨a, rfl, rfl⟩

theorem ask_inv_ok {c : KeyCall} {evs : List (Event KeyCall KeyReply)} {v : c.Value}
    (h : PathE c.ask evs (.ok v)) : evs = [⟨c, .ok v⟩] := by
  obtain ⟨a, rfl, ha⟩ := ask_inv h
  cases a with
  | error e => cases ha
  | ok v' => rw [Except.ok.inj ha]

section Ask

variable {σ : Type} {h : Handler KeyCall KeyReply σ} {c : KeyCall} {s s' : σ} {α : Type}
  {f : c.Value → KeyProg α} {post : α → σ → Prop} {bad : Fault → Prop}

/-- After a call that succeeds the program goes on with its value. -/
theorem meets_ask_ok {v : c.Value} (hc : h c s = (.ok v, s')) (hv : Meets h (f v) s' post bad) :
    Meets h (c.ask >>= f) s post bad := by
  have hexec : exec h c.ask s = (.ok v, s') := by rw [exec_ask, hc]; rfl
  rw [Meets, exec_bind_ok hexec]
  exact hv

/-- A call that fails ends the program. -/
theorem meets_ask_error {e : Errno} (hc : h c s = (.error e, s')) (he : bad (.errno e)) :
    Meets h (c.ask >>= f) s post bad := by
  have hexec : exec h c.ask s = (.error (.errno e), s') := by rw [exec_ask, hc]; rfl
  rw [Meets, exec_bind_error hexec]
  exact he

end Ask

end Peios.Registry
