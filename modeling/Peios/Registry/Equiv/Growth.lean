import Peios.Registry.Equiv.Values

/-!
# Reads of something that grows

`Key::query_value`, `Key::get_security` and `Key::query_values_batch` learn a size from one call and
read with a later one.  `KeyContents` is what they are about at one moment; `changing` is a registry
where it changes once, right after the first call.

`absorbs_iff` says which of the reads then return what there is after the change.  The first two go
on when a call reports `ERANGE`; the batch does not, and fails after every growth.
-/

namespace Peios.Registry

open Interaction Prog ByteString

/-! ### What the calls see -/

/-- What the calls see at one moment: a value, a descriptor and all values of a key. -/
structure KeyContents where
  value : Item 2 ValueFields
  descriptor : Item 1 Unit
  /-- A call for the descriptor without a buffer may succeed. -/
  probeSucceeds : Bool
  values : StaticValues

namespace KeyContents

variable (k : KeyContents)

/-- What a call for the descriptor is answered. -/
def descriptorAnswer (out : Util.BufCall) (rest : WindowReply 1 Unit) : WindowReply 1 Unit :=
  match out with
  | .null =>
    { rest with
      errno := if k.probeSucceeds then none else some ERANGE, lens := k.descriptor.lens }
  | .buf b => Item.answer (some k.descriptor) (fun _ => b) rest

/-- What a call is answered.  A batch call that has no room leaves its window as it was. -/
def answer : (c : RegCall) → RegReply c
  | .queryValue key name txn w =>
    Item.answer (some k.value) w (k.values.other (.queryValue key name txn w))
  | .getSecurity key secinfo out =>
    k.descriptorAnswer out (k.values.other (.getSecurity key secinfo out))
  | .queryValuesBatch key txn w =>
    k.values.batchAnswer w { k.values.other (.queryValuesBatch key txn w) with windows := w }
  | c => k.values.other c

/-- The first call sees `before`, and every later one `after`. -/
def changing (before after : KeyContents) : Handler RegCall RegReply Nat :=
  .scheduled answer fun n => if n = 0 then before else after

theorem run_sys_zero (before after : KeyContents) (c : RegCall) :
    (sys c).run (changing before after) 0 = (before.answer c, 1) := rfl

theorem run_sys_of_pos (before after : KeyContents) {n : Nat} (hn : 1 ≤ n) (c : RegCall) :
    (sys c).run (changing before after) n = (after.answer c, n + 1) := by
  have hne : n ≠ 0 := by omega
  show ((if n = 0 then before else after).answer c, n + 1) = _
  rw [if_neg hne]

end KeyContents

/-! ### The reads -/

/-- A read that learns a size from one call and reads with a later one. -/
inductive Reading where
  | queryValue (key : Key) (name : Bytes) (txn : Option Transaction)
  | getSecurity (key : Key) (secinfo : UInt32)
  | queryValuesBatch (key : Key) (txn : Option Transaction)

namespace Reading

/-- The first call reports a size.  A value without any bytes is read by that call. -/
def Reports (before : KeyContents) : Reading → Prop
  | queryValue .. => ¬ before.value.Fits fun _ => []
  | getSecurity .. => True
  | queryValuesBatch .. => True

/-- What is read is longer after the change. -/
def Grows (before after : KeyContents) : Reading → Prop
  | queryValue .. => ∃ i, (before.value.bytes i).length < (after.value.bytes i).length
  | getSecurity .. => ∃ i, (before.descriptor.bytes i).length < (after.descriptor.bytes i).length
  | queryValuesBatch .. =>
    (packed before.values.values).length < (packed after.values.values).length

/-- The read returns what there is after the change. -/
def Absorbs (before after : KeyContents) : Reading → Prop
  | queryValue key name txn =>
    ∃ v : RegValue,
      ((key.queryValue name txn).run (KeyContents.changing before after) 0).1 = .ok v ∧
        v.IsOf after.value
  | getSecurity key secinfo =>
    ((key.getSecurity secinfo).run (KeyContents.changing before after) 0).1
      = .ok (after.descriptor.bytes ⟨0, Nat.one_pos⟩)
  | queryValuesBatch key txn =>
    (exec (KeyContents.changing before after) (key.queryValuesBatch txn) 0).1
      = .ok after.values.values

/-- The read goes on when a call finds its buffer too small. -/
def Retries : Reading → Prop
  | queryValue .. => True
  | getSecurity .. => True
  | queryValuesBatch .. => False

variable {before after : KeyContents} {key : Key} {txn : Option Transaction}

theorem absorbs_queryValue {name : Bytes} (hreports : ¬ before.value.Fits fun _ => []) :
    (queryValue key name txn).Absorbs before after := by
  refine ⟨_, ?_, RegValue.isOf_ofWindows after.value⟩
  have hfirst : (sys (.queryValue key (bytesU32 name) txn fun _ => [])).run
      (KeyContents.changing before after) 0
      = (Item.answer (some before.value) (fun _ => [])
          (before.values.other (.queryValue key (bytesU32 name) txn fun _ => [])), 1) :=
    KeyContents.run_sys_zero _ _ _
  have hlater : ∀ j ≥ 1, ∀ w, ∃ rest, (sys (.queryValue key (bytesU32 name) txn w)).run
      (KeyContents.changing before after) j = (Item.answer (some after.value) w rest, j + 1) :=
    fun j hj w => ⟨_, KeyContents.run_sys_of_pos _ _ hj _⟩
  unfold Key.queryValue sizedRead
  rw [sizedRead_loop_run _ _ 3 hfirst, Option.elim_some, if_neg hreports]
  exact sizedRead_loop_settled _ _ hlater 1 _

theorem absorbs_getSecurity {secinfo : UInt32} :
    (getSecurity key secinfo).Absorbs before after := by
  show ((key.getSecurity secinfo).run (KeyContents.changing before after) 0).1 = _
  have hlater : ∀ j ≥ 1, ∀ w : Fin 1 → Bytes, ∃ rest,
      (sys (.getSecurity key secinfo (.buf (w 0)))).run (KeyContents.changing before after) j
        = (Item.answer (some after.descriptor) w rest, j + 1) := by
    intro j hj w
    have hw : (fun _ => w 0) = w := by
      funext i
      rw [Fin.fin_one_eq_zero i]
    refine ⟨after.values.other (.getSecurity key secinfo (.buf (w 0))), ?_⟩
    have hcall := KeyContents.run_sys_of_pos before after hj
      (.getSecurity key secinfo (.buf (w 0)))
    simp only [KeyContents.answer, KeyContents.descriptorAnswer, hw] at hcall
    exact hcall
  have hread : ∀ cap, ((key.readSecurity secinfo cap).run
      (KeyContents.changing before after) 1).1 = .ok (after.descriptor.bytes 0) :=
    fun cap => sizedRead_loop_settled _ _ hlater 2 _
  unfold Key.getSecurity
  rw [run_bind, KeyContents.run_sys_zero]
  -- whether the probe succeeds or not, the descriptor is read
  cases hsucceeds : before.probeSucceeds with
  | true => simp [KeyContents.answer, KeyContents.descriptorAnswer, hsucceeds, hread]
  | false => simp [KeyContents.answer, KeyContents.descriptorAnswer, hsucceeds, hread]

/-- The batch read returns what its second call leaves. -/
theorem exec_queryValuesBatch_changing (key : Key) (txn : Option Transaction) {w : Fin 1 → Bytes}
    (hw : w = fun _ => List.replicate (packed before.values.values).length 0) :
    (exec (KeyContents.changing before after) (key.queryValuesBatch txn) 0).1
      = batchResult (after.values.batchAnswer w
          { after.values.other (.queryValuesBatch key txn w) with windows := w }) := by
  have hprobe := KeyContents.run_sys_zero before after
    (.queryValuesBatch key txn fun _ => [])
  have hread := KeyContents.run_sys_of_pos before after le_rfl
    (.queryValuesBatch key txn w)
  rw [hw] at hread ⊢
  rw [before.values.exec_queryValuesBatch_of hprobe hread]
  rfl

theorem absorbs_queryValuesBatch :
    (queryValuesBatch key txn).Absorbs before after ↔
      ¬ (queryValuesBatch key txn).Grows before after := by
  obtain ⟨w, hw⟩ : ∃ w : Fin 1 → Bytes,
      w = fun _ => List.replicate (packed before.values.values).length 0 := ⟨_, rfl⟩
  have hfits : after.values.batch.Fits w ↔
      ¬ (packed before.values.values).length < (packed after.values.values).length := by
    rw [hw, not_lt]
    unfold Item.Fits
    simp only [List.length_replicate, Fin.forall_fin_one]
    rfl
  show (exec (KeyContents.changing before after) (key.queryValuesBatch txn) 0).1 = _ ↔ ¬ (_ < _)
  rw [exec_queryValuesBatch_changing key txn hw, ← hfits]
  constructor
  · exact after.values.fits_of_batchResult rfl
  · exact fun h => after.values.batchResult_of_fits h _

/-- **A growth is absorbed** by `Key::query_value` and `Key::get_security`, and not by
`Key::query_values_batch`: of the three, it alone does not read again. -/
theorem absorbs_iff (r : Reading) (hreports : r.Reports before) :
    r.Absorbs before after ↔ r.Retries ∨ ¬ r.Grows before after := by
  cases r with
  | queryValue key name txn => exact iff_of_true (absorbs_queryValue hreports) (.inl trivial)
  | getSecurity key secinfo => exact iff_of_true absorbs_getSecurity (.inl trivial)
  | queryValuesBatch key txn =>
    rw [absorbs_queryValuesBatch]
    exact (or_iff_right not_false).symm

/-! ### A key that is given a value -/

/-- A key with these values, whose names and data are short; everything to read of it is as long as
they are. -/
def contentsOf (values : List ValueRecord) (hshort : (packed values).length < 2 ^ 32)
    (hall : values.all (fun r => r.Encodable) = true) : KeyContents where
  value := { fields := { sequence := 1, ty := .BINARY }, bytes := fun _ => packed values,
             length_lt := fun _ => hshort }
  descriptor := { fields := (), bytes := fun _ => packed values, length_lt := fun _ => hshort }
  probeSucceeds := true
  values := .ofValues values hshort hall

/-- One value. -/
def oneValue : KeyContents :=
  contentsOf [{ name := utf8 "Enabled", ty := .DWORD, data := leBytes 4 1 }] (by decide) (by decide)

/-- That value and another one. -/
def twoValues : KeyContents :=
  contentsOf [{ name := utf8 "Enabled", ty := .DWORD, data := leBytes 4 1 },
    { name := utf8 "Owner", ty := .BINARY, data := [1] }] (by decide) (by decide)

theorem absorbs_iff_twoValues :
    (queryValue 3 (utf8 "Enabled") none).Absorbs oneValue twoValues := by
  have hreports : (queryValue 3 (utf8 "Enabled") none).Reports oneValue := by
    show ¬ oneValue.value.Fits fun _ => []
    decide
  exact (absorbs_iff _ hreports).mpr (.inl trivial)

/-- A value written between the two calls of a batch read makes it fail. -/
theorem not_absorbs_twoValues :
    (queryValuesBatch 3 none).Reports oneValue ∧ (queryValuesBatch 3 none).Grows oneValue twoValues ∧
    ¬ (queryValuesBatch 3 none).Absorbs oneValue twoValues ∧
    (exec (KeyContents.changing oneValue twoValues) (Key.queryValuesBatch 3 none) 0).1
      = .error (.errno ERANGE) := by
  have hgrows : (queryValuesBatch 3 none).Grows oneValue twoValues := by
    show (packed oneValue.values.values).length < (packed twoValues.values.values).length
    decide
  refine ⟨trivial, hgrows, fun h => absorbs_queryValuesBatch.mp h hgrows, ?_⟩
  decide +kernel

end Reading

end Peios.Registry
