import Peios.Bytes.Parses
import Peios.Equiv.Util
import Peios.Registry.Equiv.SizedRead
import Peios.Registry.Values

/-!
# Correctness of the reads of all values

`ValueRecord.encode` is a record on the wire.  Each step of the decoder is a reader in the sense of
`Parses`, of the strings that stand for what it reads: a field of four bytes, a string of a given
length, a record, and `count` records.  `parseValueRecords_exact` is the last of these from the
start of the buffer, and that the decoder fails with `EINVAL` only.

`StaticValues` is a key whose values nobody changes, and `StaticValues.registry` what libpeios
answers about it.  `batch_eq_walk` says that the batch and the iterator both return those values.
-/

namespace Peios.Registry

open Interaction Prog ByteString

/-! ### The grammar -/

namespace ValueRecord

/-- A record whose lengths fit their `u32` fields. -/
def Encodable (r : ValueRecord) : Prop := r.name.length < 2 ^ 32 ∧ r.data.length < 2 ^ 32

instance (r : ValueRecord) : Decidable r.Encodable := inferInstanceAs (Decidable (_ ∧ _))

/-- A record on the wire: `name_len: u32`, the name, `type: u32`, `data_len: u32`, the data. -/
def encode (r : ValueRecord) : Bytes :=
  leBytes 4 r.name.length ++ (r.name ++ (leBytes 4 r.ty.raw.toNat ++
    (leBytes 4 r.data.length ++ r.data)))

end ValueRecord

/-- Records on the wire, one after another. -/
def packed (records : List ValueRecord) : Bytes := records.flatMap ValueRecord.encode

/-! ### Fields -/

section

variable {buf : Bytes} (hbuf : buf.length < 2 ^ 64)
include hbuf

theorem endOf_eq {pos : Nat} (n : Nat) :
    endOf buf pos n = if pos + n ≤ buf.length then .ok (pos + n) else .error (.errno EINVAL) := by
  unfold endOf checkedAdd
  by_cases hle : pos + n ≤ buf.length
  · rw [if_pos hle, if_pos (by omega), Option.filter_some, if_pos (decide_eq_true hle)]
    rfl
  · rw [if_neg hle]
    split_ifs
    · rw [Option.filter_some, if_neg (by simpa using hle)]
      rfl
    · rfl

/-- A string of `len` bytes. -/
theorem nextBytes_parses (len : Nat) :
    Parses buf (.errno EINVAL) (nextBytes buf len) (fun b w => w = b ∧ w.length = len) where
  ok_iff := by
    intro pos b stop hpos
    rw [nextBytes, endOf_eq hbuf]
    split_ifs with hle
    · rw [ok_bind, slice_of_le (by omega) hle, ok_bind]
      have hlen : ((buf.take (pos + len)).drop pos).length = len := by
        rw [List.length_drop, List.length_take_of_le hle]
        omega
      have hpre : (buf.take (pos + len)).drop pos <+: buf.drop pos := by
        rw [List.drop_take]
        exact List.take_prefix _ _
      constructor
      · intro h
        obtain ⟨rfl, rfl⟩ := Prod.mk.inj (Except.ok.inj h)
        exact ⟨_, ⟨rfl, hlen⟩, hpre, by rw [hlen]⟩
      · rintro ⟨w, ⟨rfl, hw⟩, hw', rfl⟩
        have heq : w = (buf.take (pos + len)).drop pos :=
          (List.prefix_of_prefix_length_le hw' hpre (by omega)).eq_of_length (by omega)
        rw [← heq, hw]
        rfl
    · refine iff_of_false (by simp) ?_
      rintro ⟨w, ⟨rfl, hw⟩, hw', rfl⟩
      exact hle (hw ▸ add_length_le_of_prefix_drop hpos hw')
  error_eq := by
    intro pos e _ h
    rw [nextBytes, endOf_eq hbuf] at h
    split_ifs at h with hle
    · rw [ok_bind, slice_of_le (by omega) hle] at h
      cases h
    · exact (Except.error.inj h).symm

/-- A field of four bytes. -/
theorem nextU32_parses :
    Parses buf (.errno EINVAL) (nextU32 buf) (fun v w => v < 2 ^ 32 ∧ w = leBytes 4 v) := by
  have hread := (nextBytes_parses hbuf 4).bind fun b =>
    Parses.ret buf (Fault.errno EINVAL) (ofLeBytes b)
  apply hread.congr
  · intro pos _
    rw [nextU32, readU32, nextBytes, endOf_eq hbuf]
    split_ifs with hle
    · rw [ok_bind, ok_bind, slice_of_le (by omega) hle, ok_bind, addAssign, if_pos (by omega)]
      rfl
    · rfl
  · intro v w
    constructor
    · rintro ⟨b, w₁, w₂, ⟨rfl, hlen⟩, ⟨rfl, rfl⟩, rfl⟩
      have hlt := ofLeBytes_lt w₁
      have hbytes := leBytes_ofLeBytes w₁
      rw [hlen] at hlt hbytes
      rw [hbytes, List.append_nil]
      exact ⟨hlt, rfl⟩
    · rintro ⟨hv, rfl⟩
      have hback := ofLeBytes_leBytes 4 v hv
      exact ⟨_, _, [], ⟨rfl, length_leBytes 4 v⟩, ⟨hback.symm, rfl⟩, (List.append_nil _).symm⟩

/-! ### Records -/

/-- A record. -/
theorem parseValueRecord_parses :
    Parses buf (.errno EINVAL) (parseValueRecord buf)
      (fun r w => r.Encodable ∧ w = r.encode) := by
  have hread :=
    (nextU32_parses hbuf).bind fun nameLen =>
    (nextBytes_parses hbuf nameLen).bind fun name =>
    (nextU32_parses hbuf).bind fun ty =>
    (nextU32_parses hbuf).bind fun dataLen =>
    (nextBytes_parses hbuf dataLen).bind fun data =>
    Parses.ret buf (Fault.errno EINVAL)
      ({ name, ty := ⟨.ofNat ty⟩, data } : ValueRecord)
  apply hread.congr
  · intro pos _
    rfl
  · intro r w
    constructor
    · rintro ⟨nameLen, _, _, ⟨hname, rfl⟩, ⟨name, _, _, ⟨rfl, rfl⟩, ⟨ty, _, _, ⟨hty, rfl⟩,
        ⟨dataLen, _, _, ⟨hdata, rfl⟩, ⟨data, _, _, ⟨rfl, rfl⟩, ⟨rfl, rfl⟩, rfl⟩, rfl⟩, rfl⟩,
        rfl⟩, rfl⟩
      refine ⟨⟨hname, hdata⟩, ?_⟩
      unfold ValueRecord.encode
      dsimp only
      rw [UInt32.toNat_ofNat_of_lt' hty, List.append_nil]
    · rintro ⟨⟨hname, hdata⟩, rfl⟩
      refine ⟨_, _, _, ⟨hname, rfl⟩, ⟨_, _, _, ⟨rfl, rfl⟩, ⟨r.ty.raw.toNat, _, _,
        ⟨r.ty.raw.toNat_lt, rfl⟩, ⟨_, _, _, ⟨hdata, rfl⟩, ⟨_, _, [], ⟨rfl, rfl⟩,
        ⟨?_, rfl⟩, rfl⟩, rfl⟩, rfl⟩, rfl⟩, ?_⟩
      · rw [UInt32.ofNat_toNat]
      · rw [List.append_nil]
        rfl

/-- The loop reads `count` records behind those it has. -/
theorem parseValueRecords_loop_parses (count : Nat) (out : List ValueRecord) :
    Parses buf (.errno EINVAL) (parseValueRecords.loop buf count out)
      (fun out' w => ∃ records : List ValueRecord, records.length = count ∧
        (∀ r ∈ records, r.Encodable) ∧ out' = out ++ records ∧ w = packed records) := by
  induction count generalizing out with
  | zero =>
    apply (Parses.ret buf (Fault.errno EINVAL) out).congr
    · intro pos _
      rfl
    · intro out' w
      constructor
      · rintro ⟨rfl, rfl⟩
        exact ⟨[], rfl, by simp, by simp, rfl⟩
      · rintro ⟨records, hlen, _, rfl, rfl⟩
        obtain rfl := List.eq_nil_of_length_eq_zero hlen
        exact ⟨List.append_nil out, rfl⟩
  | succ count ih =>
    apply ((parseValueRecord_parses hbuf).bind fun r => ih (out ++ [r])).congr
    · intro pos _
      rfl
    · intro out' w
      constructor
      · rintro ⟨r, _, _, ⟨hr, rfl⟩, ⟨records, rfl, hall, rfl, rfl⟩, rfl⟩
        exact ⟨r :: records, rfl, by simpa using ⟨hr, hall⟩, by simp, rfl⟩
      · rintro ⟨records, hlen, hall, rfl, rfl⟩
        obtain ⟨r, records, rfl⟩ := List.exists_cons_of_length_eq_add_one hlen
        rw [List.forall_mem_cons] at hall
        exact ⟨r, _, _, ⟨hall.1, rfl⟩, ⟨records, Nat.succ.inj hlen, hall.2, by simp, rfl⟩, rfl⟩

omit hbuf in
theorem parseValueRecords_eq {count : Nat} (hcount : count < 2 ^ 32) :
    parseValueRecords buf count = (parseValueRecords.loop buf count [] 0).map Prod.fst := by
  have hcap : ValueRecord.SIZE * count ≤ Util.isizeMax := by
    unfold ValueRecord.SIZE Util.isizeMax
    omega
  unfold parseValueRecords withCapacity
  rw [if_pos hcap]
  rcases parseValueRecords.loop buf count [] 0 with e | r <;> rfl

theorem parseValueRecords_eq_ok {count : Nat} (hcount : count < 2 ^ 32)
    {records : List ValueRecord} :
    parseValueRecords buf count = .ok records ↔
      records.length = count ∧ (∀ r ∈ records, r.Encodable) ∧ packed records <+: buf := by
  have hloop := parseValueRecords_loop_parses hbuf count []
  rw [parseValueRecords_eq hcount]
  constructor
  · intro h
    rcases hr : parseValueRecords.loop buf count [] 0 with e | ⟨out, stop⟩
    · rw [hr] at h
      cases h
    rw [hr] at h
    obtain rfl : out = records := Except.ok.inj h
    obtain ⟨_, ⟨records, hlen, hall, rfl, rfl⟩, hpre, _⟩ := (hloop.ok_iff (Nat.zero_le _)).mp hr
    exact ⟨hlen, hall, hpre⟩
  · rintro ⟨hlen, hall, hpre⟩
    rw [(hloop.ok_iff (Nat.zero_le _)).mpr ⟨_, ⟨records, hlen, hall, rfl, rfl⟩, hpre, rfl⟩]
    rfl

theorem eq_of_parseValueRecords_eq_error {count : Nat} (hcount : count < 2 ^ 32) {e : Fault}
    (h : parseValueRecords buf count = .error e) : e = .errno EINVAL := by
  rw [parseValueRecords_eq hcount] at h
  rcases hr : parseValueRecords.loop buf count [] 0 with e' | r
  · rw [hr] at h
    obtain rfl : e' = e := Except.error.inj h
    exact (parseValueRecords_loop_parses hbuf count []).error_eq (Nat.zero_le _) hr
  · rw [hr] at h
    cases h

end

/-- **The decoder reads exactly `count` packed records**: it returns the records whose encodings
stand at the start of the buffer, if there are such, and fails with `EINVAL` if there are none; no
access is out of range and no position overflows. -/
theorem parseValueRecords_exact (buf : Bytes) (count : Nat) (hbuf : buf.length < 2 ^ 64)
    (hcount : count < 2 ^ 32) :
    (∀ records, parseValueRecords buf count = .ok records ↔
      records.length = count ∧ (∀ r ∈ records, r.Encodable) ∧ packed records <+: buf) ∧
    ((¬ ∃ records : List ValueRecord,
        records.length = count ∧ (∀ r ∈ records, r.Encodable) ∧ packed records <+: buf) →
      parseValueRecords buf count = .error (.errno EINVAL)) := by
  constructor
  · exact fun records => parseValueRecords_eq_ok hbuf hcount
  · intro hnone
    rcases hr : parseValueRecords buf count with e | records
    · rw [eq_of_parseValueRecords_eq_error hbuf hcount hr]
    · exact absurd ⟨records, (parseValueRecords_eq_ok hbuf hcount).mp hr⟩ hnone

/-- Two records, with a byte after them. -/
theorem parseValueRecords_exact_two :
    parseValueRecords
        [1, 0, 0, 0, 97, 4, 0, 0, 0, 4, 0, 0, 0, 7, 0, 0, 0,
          2, 0, 0, 0, 98, 99, 3, 0, 0, 0, 1, 0, 0, 0, 5, 255] 2
      = .ok [{ name := [97], ty := .DWORD, data := [7, 0, 0, 0] },
          { name := [98, 99], ty := .BINARY, data := [5] }] := by
  apply ((parseValueRecords_exact _ 2 (by decide) (by decide)).1 _).mpr
  decide

/-! ### A key whose values nobody changes -/

/-- A key whose effective values are `values`, with lengths that fit their `u32` fields. -/
structure StaticValues where
  key : Key
  values : List ValueRecord
  encodable : ∀ r ∈ values, r.Encodable
  packed_lt : (packed values).length < 2 ^ 32
  /-- A batch call without a buffer may succeed although there are values to return. -/
  probeSucceeds : Bool
  /-- The answers to all other calls, and what failed ones leave behind. -/
  other : (c : RegCall) → RegReply c

/-- A key with these values, whose names and data are short. -/
def StaticValues.ofValues (values : List ValueRecord) (hshort : (packed values).length < 2 ^ 32)
    (hall : values.all (fun r => r.Encodable) = true) : StaticValues :=
  { key := 3, values, encodable := fun r hr => of_decide_eq_true (List.all_eq_true.mp hall r hr)
    packed_lt := hshort, probeSucceeds := true, other := RegReply.failed EINVAL }

/-- What enumerating a value is about. -/
def ValueRecord.item (r : ValueRecord) (hr : r.Encodable) : Item 2 ValueType where
  fields := r.ty
  bytes := ![r.name, r.data]
  length_lt := Fin.forall_fin_two.mpr hr

/-- A record as `Key::enum_value` returns it. -/
def ValueRecord.enumValue (r : ValueRecord) : EnumValue :=
  { name := r.name, ty := r.ty, data := r.data }

/-- What the batch read makes of its second call. -/
def batchResult (v : WindowReply 1 UInt32) : Outcome (List ValueRecord) :=
  match v.errno with
  | some e => .error (.errno e)
  | none => parseValueRecords v.filled v.fields.toNat

namespace StaticValues

variable (v : StaticValues)

/-- What enumerating the `i`-th value is about. -/
def entry (i : Nat) : Option (Item 2 ValueType) :=
  (v.values.pmap ValueRecord.item v.encodable)[i]?

/-- What a batch call is about: the packed records, and how many they are. -/
def batch : Item 1 UInt32 where
  fields := .ofNat v.values.length
  bytes := fun _ => packed v.values
  length_lt := fun _ => v.packed_lt

/-- What a batch call is answered.  One without a buffer may succeed in any case; it then reports
the length and fills nothing. -/
def batchAnswer (w : Fin 1 → Bytes) (rest : WindowReply 1 UInt32) : WindowReply 1 UInt32 :=
  if (∀ i, w i = []) ∧ v.probeSucceeds ∧ ¬ v.batch.Fits w then
    { rest with errno := none, lens := v.batch.lens }
  else Item.answer (some v.batch) w rest

/-- The registry's answers to the calls of libpeios. -/
def registry : Handler RegCall RegReply Unit
  | .enumValue key index txn w, s =>
    if key = v.key then
      (Item.answer (v.entry index.toNat) w (v.other (.enumValue key index txn w)), s)
    else (v.other (.enumValue key index txn w), s)
  | .queryValuesBatch key txn w, s =>
    if key = v.key then (v.batchAnswer w (v.other (.queryValuesBatch key txn w)), s)
    else (v.other (.queryValuesBatch key txn w), s)
  | c, s => (v.other c, s)

/-- The registry's answers to the methods of `Key`. -/
def keys : Handler KeyCall KeyReply Unit := fun c s => c.impl.run v.registry s

/-! ### The batch -/

/-- Every record takes at least its three length and type fields. -/
theorem length_le_packed (records : List ValueRecord) :
    records.length ≤ (packed records).length := by
  induction records with
  | nil => rfl
  | cons r records ih =>
    have hcons : packed (r :: records) = r.encode ++ packed records := rfl
    rw [hcons, List.length_append, List.length_cons]
    have hr : 0 < r.encode.length := by
      unfold ValueRecord.encode
      rw [List.length_append, length_leBytes]
      omega
    omega

theorem length_lt : v.values.length < 2 ^ 32 :=
  lt_of_le_of_lt (length_le_packed v.values) v.packed_lt

theorem toNat_count : v.batch.fields.toNat = v.values.length :=
  UInt32.toNat_ofNat_of_lt' v.length_lt

/-- The packed records are decoded as the values. -/
theorem parseValueRecords_packed :
    parseValueRecords (packed v.values) v.values.length = .ok v.values := by
  have hbuf : (packed v.values).length < 2 ^ 64 := lt_trans v.packed_lt (by norm_num)
  apply (parseValueRecords_eq_ok hbuf v.length_lt).mpr
  exact ⟨rfl, v.encodable, List.prefix_rfl⟩

/-- A batch call with enough room returns the packed records. -/
theorem batchAnswer_of_fits {w : Fin 1 → Bytes} (hw : v.batch.Fits w)
    (rest : WindowReply 1 UInt32) :
    v.batchAnswer w rest = Item.answer (some v.batch) w rest := by
  unfold batchAnswer
  rw [if_neg]
  exact fun h => h.2.2 hw

/-- A batch call reports the length it needs, and fails with `ERANGE` if at all. -/
theorem batchAnswer_spec (w : Fin 1 → Bytes) (rest : WindowReply 1 UInt32) :
    (v.batchAnswer w rest).lens = v.batch.lens ∧
    ((v.batchAnswer w rest).errno = none ∨ (v.batchAnswer w rest).errno = some ERANGE) := by
  unfold batchAnswer
  split_ifs with hprobe
  · exact ⟨rfl, .inl rfl⟩
  · unfold Item.answer
    dsimp only
    split_ifs
    · exact ⟨rfl, .inl rfl⟩
    · exact ⟨rfl, .inr rfl⟩

theorem registry_batch (txn : Option Transaction) (w : Fin 1 → Bytes) (s : Unit) :
    v.registry (.queryValuesBatch v.key txn w) s
      = (v.batchAnswer w (v.other (.queryValuesBatch v.key txn w)), s) := by
  show (if v.key = v.key then _ else _) = _
  rw [if_pos rfl]

/-- What a batch call with enough room leaves is decoded as the values. -/
theorem batchResult_of_fits {w : Fin 1 → Bytes} (hw : v.batch.Fits w)
    (rest : WindowReply 1 UInt32) : batchResult (v.batchAnswer w rest) = .ok v.values := by
  rw [batchAnswer_of_fits v hw]
  unfold batchResult
  simp only [Item.answer, if_pos hw]
  unfold WindowReply.filled
  dsimp only
  rw [v.batch.toNat_lens 0, List.take_left' rfl, toNat_count]
  exact v.parseValueRecords_packed

/-- Without enough room, it is not: the call fails, or there is nothing in the window to decode. -/
theorem fits_of_batchResult {w : Fin 1 → Bytes} {rest : WindowReply 1 UInt32}
    (hrest : rest.windows = w) (h : batchResult (v.batchAnswer w rest) = .ok v.values) :
    v.batch.Fits w := by
  by_contra hfits
  unfold batchAnswer at h
  split_ifs at h with hprobe
  · have hnil : w 0 = [] := hprobe.1 0
    have hparse : parseValueRecords [] rest.fields.toNat = .ok v.values := by
      rw [← h]
      simp [batchResult, WindowReply.filled, hrest, hnil]
    have hpacked := ((parseValueRecords_eq_ok (by simp) rest.fields.toNat_lt).mp hparse).2.2
    apply hfits
    intro i
    have hlen : (packed v.values).length ≤ 0 := hpacked.length_le
    show (packed v.values).length ≤ _
    omega
  · simp [batchResult, Item.answer, hfits] at h

/-- Once a probe has reported the length, the batch read returns what the second call leaves. -/
theorem exec_queryValuesBatch_of {σ : Type} {h : Handler RegCall RegReply σ} {s s₁ s₂ : σ}
    {key : Key} {txn : Option Transaction} {rest v₂ : WindowReply 1 UInt32}
    (hprobe : h (.queryValuesBatch key txn fun _ => []) s = (v.batchAnswer (fun _ => []) rest, s₁))
    (hread : h (.queryValuesBatch key txn fun _ => List.replicate (packed v.values).length 0) s₁
      = (v₂, s₂)) :
    exec h (key.queryValuesBatch txn) s = (batchResult v₂, s₂) := by
  obtain ⟨hlens, herrno⟩ := v.batchAnswer_spec (fun _ => []) rest
  have hcall : ∀ {w : Fin 1 → Bytes} {r : WindowReply 1 UInt32} {t t' : σ},
      h (.queryValuesBatch key txn w) t = (r, t') →
      exec h (ExceptT.lift (sys (.queryValuesBatch key txn w)) :
        RegOutcome (WindowReply 1 UInt32)) t = (.ok r, t') :=
    fun hr => congrArg (fun r => (Except.ok r.1, r.2)) hr
  have hmax : (packed v.values).length ≤ Util.isizeMax := by
    have hlt := v.packed_lt
    unfold Util.isizeMax
    omega
  unfold Key.queryValuesBatch
  rw [exec_bind_ok (hcall hprobe)]
  generalize v.batchAnswer (fun _ => []) _ = probe at hlens herrno ⊢
  have haccept : exec h (acceptProbe probe.errno) s₁ = (.ok (), s₁) := by
    rcases herrno with hnone | herange
    · rw [hnone]
      rfl
    · rw [herange]
      rfl
  have hlen : probe.len.toNat = (packed v.values).length := by
    rw [WindowReply.len, hlens, v.batch.toNat_lens 0]
    rfl
  rw [exec_bind_ok haccept, hlen, Util.exec_zeroed hmax, exec_bind_ok (hcall hread)]
  unfold batchResult
  rcases v₂.errno with _ | e
  · rfl
  · rfl

/-- The batch read returns the values. -/
theorem exec_queryValuesBatch (txn : Option Transaction) (s : Unit) :
    exec v.registry (v.key.queryValuesBatch txn) s = (.ok v.values, s) := by
  have hfits : v.batch.Fits fun _ => List.replicate (packed v.values).length 0 := by
    intro i
    rw [List.length_replicate]
    exact le_rfl
  rw [v.exec_queryValuesBatch_of (v.registry_batch txn _ s) (v.registry_batch txn _ s),
    batchResult_of_fits v hfits]

/-! ### The walk -/

/-- The iterator stands before the `i`-th value, or has found the end. -/
structure At (it : Values) (i : Nat) : Prop where
  key : it.key = v.key
  index : if it.done then v.values.length ≤ i else it.index.toNat = i ∧ i ≤ v.values.length

theorem at_values (txn : Option Transaction) : v.At (v.key.values txn) 0 :=
  ⟨rfl, rfl, Nat.zero_le _⟩

/-- `Key::enum_value` returns the value at its index. -/
theorem keys_enumValue (index : UInt32) (txn : Option Transaction) (s : Unit) :
    v.keys (.enumValue v.key index txn) s
      = (.ok (v.values[index.toNat]?.map ValueRecord.enumValue), s) := by
  have hrun : ∀ w, ∃ rest, (sys (.enumValue v.key index txn w)).run v.registry s
      = (Item.answer (v.entry index.toNat) w rest, s) := by
    intro w
    refine ⟨v.other (.enumValue v.key index txn w), ?_⟩
    show (if v.key = v.key then _ else _) = _
    rw [if_pos rfl]
  show (v.key.enumValue index txn).run v.registry s = _
  rw [Key.enumValue, sizedRead_run _ _ hrun]
  unfold entry
  rcases hi : v.values[index.toNat]? with _ | r
  · have hnone : (v.values.pmap ValueRecord.item v.encodable)[index.toNat]? = none := by
      simpa using hi
    rw [hnone]
    rfl
  · obtain ⟨hlt, rfl⟩ := List.getElem?_eq_some_iff.mp hi
    rw [List.getElem?_eq_getElem (by simpa using hlt), List.getElem_pmap]
    rfl

/-- One call of `next` returns the value the iterator stands before, and moves on. -/
theorem exec_next {it : Values} {i : Nat} (hit : v.At it i) (s : Unit) :
    ∃ it', exec v.keys it.next s
      = (.ok (v.values[i]?.map fun r => .ok r.enumValue, it'), s) ∧ v.At it' (i + 1) := by
  obtain ⟨hkey, hindex⟩ := hit
  unfold Values.next
  by_cases hdone : it.done
  · rw [if_pos hdone] at hindex ⊢
    refine ⟨it, ?_, hkey, ?_⟩
    · rw [List.getElem?_eq_none hindex]
      rfl
    · rw [if_pos hdone]
      omega
  · rw [if_neg hdone] at hindex ⊢
    obtain ⟨rfl, hle⟩ := hindex
    have hcall : exec v.keys (KeyCall.enumValue it.key it.index it.txn).attempt s
        = (.ok (.ok (v.values[it.index.toNat]?.map ValueRecord.enumValue)), s) := by
      rw [exec_attempt, hkey, keys_enumValue]
    rw [exec_bind_ok hcall]
    rcases lt_or_eq_of_le hle with hlt | heq
    · -- a value, and the index moves on
      have hmax : it.index.toNat + 1 < 2 ^ 32 := lt_of_le_of_lt hlt v.length_lt
      have hadvance : it.advance = pure { it with index := it.index + 1 } := if_pos hmax
      rw [List.getElem?_eq_getElem hlt]
      refine ⟨{ it with index := it.index + 1 }, ?_, hkey, ?_⟩
      · show exec v.keys (it.advance >>= fun it => pure (_, it)) s = _
        rw [hadvance]
        rfl
      · rw [if_neg hdone, UInt32.toNat_add]
        exact ⟨Nat.mod_eq_of_lt hmax, hlt⟩
    · -- the end
      rw [List.getElem?_eq_none heq.ge]
      refine ⟨{ it with done := true }, rfl, hkey, ?_⟩
      rw [if_pos rfl]
      omega

/-- `n` calls of `next` return the values from the iterator's place on, and then nothing. -/
theorem exec_nexts (n : Nat) {it : Values} {i : Nat} (hit : v.At it i) (s : Unit) :
    exec v.keys (it.nexts n) s
      = (.ok ((List.range' i n).map fun j => v.values[j]?.map fun r => .ok r.enumValue), s) := by
  induction n generalizing it i with
  | zero => rfl
  | succ n ih =>
    obtain ⟨it', hnext, hit'⟩ := v.exec_next hit s
    unfold Values.nexts
    rw [exec_bind_ok hnext, exec_bind_ok (ih hit')]
    rfl

/-- Collecting returns the values from the iterator's place on. -/
theorem exec_collect (rounds : Nat) {it : Values} {i : Nat} (hit : v.At it i)
    (hi : i ≤ v.values.length) (hrounds : v.values.length < rounds + i) (values : List EnumValue)
    (s : Unit) :
    exec v.keys (it.collect rounds values) s
      = (.ok (values ++ (v.values.drop i).map ValueRecord.enumValue), s) := by
  induction rounds generalizing it i values with
  | zero => omega
  | succ rounds ih =>
    obtain ⟨it', hnext, hit'⟩ := v.exec_next hit s
    unfold Values.collect
    rw [exec_bind_ok hnext]
    rcases lt_or_ge i v.values.length with hlt | hge
    · rw [List.getElem?_eq_getElem hlt, List.drop_eq_getElem_cons hlt]
      show exec v.keys (it'.collect rounds _) s = _
      rw [ih hit' hlt (by omega), List.map_cons, List.append_assoc, List.singleton_append]
    · rw [List.getElem?_eq_none hge, List.drop_eq_nil_of_le hge, List.map_nil, List.append_nil]
      rfl

end StaticValues

/-- **The batch and the walk agree**: `Key::query_values_batch` returns the values of the key,
collecting `Key::values` returns the same in the same order, and `n` calls of `next` return the
first `n` of them, and `None` for each that is past the end. -/
theorem batch_eq_walk (v : StaticValues) (txn : Option Transaction) (extra n : Nat) :
    (exec v.registry (v.key.queryValuesBatch txn) ()).1 = .ok v.values ∧
    (exec v.keys ((v.key.values txn).collect (v.values.length + 1 + extra) []) ()).1
      = .ok (v.values.map ValueRecord.enumValue) ∧
    (exec v.keys ((v.key.values txn).nexts n) ()).1
      = .ok ((List.range n).map fun i => v.values[i]?.map fun r => .ok r.enumValue) := by
  refine ⟨?_, ?_, ?_⟩
  · rw [v.exec_queryValuesBatch]
  · rw [v.exec_collect _ (v.at_values txn) (Nat.zero_le _) (by omega)]
    rfl
  · rw [v.exec_nexts n (v.at_values txn), List.range_eq_range']

/-- A key with two values. -/
def enabledAndOwner : StaticValues :=
  .ofValues [{ name := utf8 "Enabled", ty := .DWORD, data := leBytes 4 1 },
    { name := utf8 "Owner", ty := .BINARY, data := [1, 0] }] (by decide) (by decide)

theorem batch_eq_walk_enabledAndOwner :
    (exec enabledAndOwner.registry (enabledAndOwner.key.queryValuesBatch none) ()).1
      = .ok enabledAndOwner.values ∧
    (exec enabledAndOwner.keys ((enabledAndOwner.key.values none).nexts 3) ()).1
      = .ok [some (.ok { name := utf8 "Enabled", ty := .DWORD, data := leBytes 4 1 }),
          some (.ok { name := utf8 "Owner", ty := .BINARY, data := [1, 0] }), none] :=
  ⟨(batch_eq_walk enabledAndOwner none 0 3).1, (batch_eq_walk enabledAndOwner none 0 3).2.2⟩

end Peios.Registry
