import Peios.Interaction.Handler
import Peios.Registry.Key

/-!
# Sized reads are atomic

`Item` is what a read with output windows is about, as it stands at one moment, and
`Item.answer` what a call sees of it: all of it when every window is large enough, the lengths it
needs otherwise, and `ENOENT` when it is not there.  Others may change the item between any two
calls, so a read is run against a schedule of items.

`Reads` describes what the loop does against a schedule, call by call; `sizedRead_loop_reads` says
that this is what the loop computes, and the lemmas on `Reads` are inductions over it.  Together
they give `AtomicRead`, which `sizedReads_atomic` states for the four reads of `Key`.  What they
return is compared with the item field by field: `RegValue.IsOf` and the like.
-/

namespace Peios.Registry

open Interaction ByteString

/-! ### What a call sees -/

/-- What a read is about: the scalar fields and the bytes for each window, whose lengths fit the
`u32` they are reported in. -/
structure Item (n : Nat) (α : Type) where
  fields : α
  bytes : Fin n → Bytes
  length_lt : ∀ i, (bytes i).length < 2 ^ 32

variable {n : Nat} {α β : Type}

namespace Item

/-- Every window is large enough. -/
def Fits (it : Item n α) (w : Fin n → Bytes) : Prop := ∀ i, (it.bytes i).length ≤ (w i).length

instance (it : Item n α) (w : Fin n → Bytes) : Decidable (it.Fits w) :=
  inferInstanceAs (Decidable (∀ _, _))

/-- The lengths a call reports. -/
def lens (it : Item n α) (i : Fin n) : UInt32 := .ofNat (it.bytes i).length

/-- What a call with the windows `w` is answered.  What a failed call leaves in the windows and in
the fields is not specified: it comes from `rest`. -/
def answer (item : Option (Item n α)) (w : Fin n → Bytes) (rest : WindowReply n α) :
    WindowReply n α :=
  match item with
  | none => { rest with errno := some ENOENT }
  | some it =>
    if it.Fits w then
      { errno := none, lens := it.lens, fields := it.fields,
        windows := fun i => it.bytes i ++ (w i).drop (it.bytes i).length }
    else { rest with errno := some ERANGE, lens := it.lens }

/-- The windows a read makes after a call that reported this item's lengths. -/
def room (it : Item n α) (i : Fin n) : Bytes := List.replicate (it.lens i).toNat 0

theorem toNat_lens (it : Item n α) (i : Fin n) : (it.lens i).toNat = (it.bytes i).length :=
  UInt32.toNat_ofNat_of_lt' (it.length_lt i)

theorem fits_room (it : Item n α) : it.Fits it.room := by
  intro i
  rw [room, List.length_replicate, toNat_lens]

end Item

/-! ### What the loop does against a schedule -/

/-- `Reads items rounds k w ws o`: with the windows `w`, the `k`-th call coming next and `rounds`
calls left, the loop makes calls with the windows `ws`.  It ends with what the last call saw, if
that call did not find a window too small. -/
inductive Reads (items : Nat → Option (Item n α)) :
    Nat → Nat → (Fin n → Bytes) → List (Fin n → Bytes) → Option (Option (Item n α)) → Prop
  | exhausted (k w) : Reads items 0 k w [] none
  | absent {rounds k w} : items k = none → Reads items (rounds + 1) k w [w] (some none)
  | filled {rounds k w it} : items k = some it → it.Fits w →
      Reads items (rounds + 1) k w [w] (some (some it))
  | refused {rounds k w it ws o} : items k = some it → ¬ it.Fits w →
      Reads items rounds (k + 1) it.room ws o → Reads items (rounds + 1) k w (w :: ws) o

namespace Reads

variable {items : Nat → Option (Item n α)} {rounds k : Nat} {w : Fin n → Bytes}
  {ws : List (Fin n → Bytes)} {o : Option (Option (Item n α))}

theorem length_le (h : Reads items rounds k w ws o) : ws.length ≤ rounds := by
  induction h with
  | exhausted => exact le_rfl
  | absent | filled => exact Nat.succ_le_succ (Nat.zero_le _)
  | refused _ _ _ ih => exact Nat.succ_le_succ ih

/-- A loop that does not give up has made a call. -/
theorem length_pos {item : Option (Item n α)} (h : Reads items rounds k w ws (some item)) :
    0 < ws.length := by
  cases h with
  | absent | filled => exact Nat.zero_lt_one
  | refused => exact Nat.succ_pos _

/-- A result is about the item as the last call saw it. -/
theorem last {item : Option (Item n α)} (h : Reads items rounds k w ws (some item)) :
    items (k + (ws.length - 1)) = item := by
  generalize ho : some item = o at h
  induction h with
  | exhausted => cases ho
  | absent hk => exact Option.some.inj ho ▸ hk
  | filled hk _ => exact Option.some.inj ho ▸ hk
  | @refused rounds k w it ws o _ _ hrest ih =>
    subst ho
    have hpos := hrest.length_pos
    rw [List.length_cons, ← ih rfl]
    congr 1
    omega

/-- A window that was too small at the `j`-th call. -/
def TooSmall (items : Nat → Option (Item n α)) (k : Nat) (ws : List (Fin n → Bytes)) (j : Nat) :
    Prop := ∃ it w, items (k + j) = some it ∧ ws[j]? = some w ∧ ¬ it.Fits w

theorem tooSmall_cons {j : Nat} (h : TooSmall items (k + 1) ws j) :
    TooSmall items k (w :: ws) (j + 1) := by
  obtain ⟨it, w', hit, hw', hfits⟩ := h
  exact ⟨it, w', by rw [← hit]; congr 1; omega, hw', hfits⟩

/-- Every call but the last found a window too small, and when the loop gives up so did the
last. -/
theorem tooSmall (h : Reads items rounds k w ws o) :
    ∀ j, j < ws.length → (j + 1 < ws.length ∨ o = none) → TooSmall items k ws j := by
  induction h with
  | exhausted => simp
  | absent | filled => simp
  | @refused rounds k w it ws o hk hfits _ ih =>
    intro j hj hlast
    cases j with
    | zero => exact ⟨it, w, hk, rfl, hfits⟩
    | succ j =>
      rw [List.length_cons] at hj hlast
      exact tooSmall_cons (ih j (by omega) (hlast.imp_left (by omega)))

/-- The loop gives up only when it has made all its calls. -/
theorem length_of_none (h : Reads items rounds k w ws none) : ws.length = rounds := by
  generalize ho : none = o at h
  induction h with
  | exhausted => rfl
  | absent | filled => cases ho
  | refused _ _ _ ih => rw [List.length_cons, ih ho]

/-- When the item has not changed since a call that found a window too small, the next call ends
the read. -/
theorem settles (h : Reads items rounds k w ws o) :
    ∀ j, j + 1 < ws.length → items (k + (j + 1)) = items (k + j) →
      j + 2 = ws.length ∧ ∃ it, items (k + (j + 1)) = some it ∧ o = some (some it) := by
  induction h with
  | exhausted => simp
  | absent | filled => simp
  | @refused rounds k w it ws o hk hfits hrest ih =>
    intro j hj hsame
    rw [List.length_cons] at hj ⊢
    cases j with
    | zero =>
      -- the next call has room for just this item
      have hnext : items (k + 1) = some it := hsame.trans hk
      cases hrest with
      | exhausted => simp at hj
      | absent hnone => simp [hnone] at hnext
      | filled hsome => exact ⟨rfl, _, hsome, rfl⟩
      | refused hsome hfits' =>
        obtain rfl := Option.some.inj (hsome.symm.trans hnext)
        exact absurd (Item.fits_room _) hfits'
    | succ j =>
      have hshift : ∀ i, k + 1 + i = k + (i + 1) := by omega
      have := ih j (by omega) (by rw [hshift, hshift]; exact hsame)
      rw [hshift] at this
      exact ⟨by omega, this.2⟩

end Reads

/-! ### The loop -/

/-- What a read returns, by what the loop ended with. -/
def readResult (onOk : α → (Fin n → Bytes) → β) (onErr : Errno → Except Errno β) :
    Option (Option (Item n α)) → Except Errno β
  | none => .error ERANGE
  | some none => onErr ENOENT
  | some (some it) => .ok (onOk it.fields it.bytes)

section

variable {onOk : α → (Fin n → Bytes) → β} {onErr : Errno → Except Errno β}
  {o : Option (Option (Item n α))}

/-- `ERANGE` is what is left when the rounds are used up. -/
theorem eq_none_of_readResult (herr : onErr ENOENT ≠ .error ERANGE)
    (h : readResult onOk onErr o = .error ERANGE) : o = none := by
  rcases o with _ | _ | it
  · rfl
  · exact absurd h herr
  · cases h

/-- An item is reported absent when it was not there. -/
theorem eq_some_none_of_readResult (hok : ∀ v w, .ok (onOk v w) ≠ onErr ENOENT)
    (herr : onErr ENOENT ≠ .error ERANGE) (h : readResult onOk onErr o = onErr ENOENT) :
    o = some none := by
  rcases o with _ | _ | it
  · exact absurd h.symm herr
  · rfl
  · exact absurd h (hok _ _)

end

/-- The windows of a call that succeeds hold the item's bytes, once cut. -/
theorem take_answer (it : Item n α) (w : Fin n → Bytes) :
    (fun i => (it.bytes i ++ (w i).drop (it.bytes i).length).take (it.lens i).toNat)
      = it.bytes := by
  funext i
  rw [Item.toNat_lens, List.take_left' rfl]

section Loop

variable {ask : (Fin n → Bytes) → RegProg (WindowReply n α)} {call : (Fin n → Bytes) → RegCall}
  (onOk : α → (Fin n → Bytes) → β) (onErr : Errno → Except Errno β)

/-- One round of the loop. -/
theorem sizedRead_loop_run {σ : Type} {h : Handler RegCall RegReply σ} {s s' : σ}
    {item : Option (Item n α)} {w : Fin n → Bytes} {rest : WindowReply n α} (rounds : Nat)
    (hw : (ask w).run h s = (Item.answer item w rest, s')) :
    (sizedRead.loop ask onOk onErr (rounds + 1) w).run h s =
      item.elim (onErr ENOENT, s') fun it =>
        if it.Fits w then (.ok (onOk it.fields it.bytes), s')
        else (sizedRead.loop ask onOk onErr rounds it.room).run h s' := by
  rw [sizedRead.loop, Prog.run_bind, hw]
  rcases item with _ | it
  · simp [Item.answer, ENOENT, ERANGE]
  by_cases hfits : it.Fits w
  · simp [Item.answer, hfits, take_answer]
  · simp [Item.answer, hfits]
    rfl

/-- A read of an item that nobody changes returns it. -/
theorem sizedRead_run {σ : Type} {h : Handler RegCall RegReply σ} {s : σ}
    {item : Option (Item n α)}
    (hrun : ∀ w, ∃ rest, (ask w).run h s = (Item.answer item w rest, s)) :
    (sizedRead ask onOk onErr).run h s = (readResult onOk onErr (some item), s) := by
  -- two calls are enough: the second one has room for what the first one saw
  obtain ⟨rest, hw⟩ := hrun fun _ => []
  rw [sizedRead, sizedRead_loop_run onOk onErr 3 hw]
  rcases item with _ | it
  · rfl
  rw [Option.elim_some]
  split_ifs with hfits
  · rfl
  · obtain ⟨rest, hw⟩ := hrun it.room
    rw [sizedRead_loop_run onOk onErr 2 hw]
    exact if_pos it.fits_room

/-- A loop with two more rounds returns an item that no longer changes. -/
theorem sizedRead_loop_settled {h : Handler RegCall RegReply Nat} {it : Item n α} {k : Nat}
    (hrun : ∀ j ≥ k, ∀ w, ∃ rest, (ask w).run h j = (Item.answer (some it) w rest, j + 1))
    (rounds : Nat) (w : Fin n → Bytes) :
    ((sizedRead.loop ask onOk onErr (rounds + 2) w).run h k).1 = .ok (onOk it.fields it.bytes) := by
  obtain ⟨rest, hw⟩ := hrun k le_rfl w
  rw [sizedRead_loop_run onOk onErr (rounds + 1) hw, Option.elim_some]
  split_ifs with hfits
  · rfl
  · -- the next call has room for it
    obtain ⟨rest, hw⟩ := hrun (k + 1) (Nat.le_succ k) it.room
    rw [sizedRead_loop_run onOk onErr rounds hw, Option.elim_some, if_pos it.fits_room]

/-- A read that fails with one error whatever windows it has fails with that error. -/
theorem sizedRead_run_error {σ : Type} {h : Handler RegCall RegReply σ} {s : σ} {e : Errno}
    (hask : ∀ w, ∃ v, (ask w).run h s = (v, s) ∧ v.errno = some e) :
    (sizedRead ask onOk .error).run h s = (.error e, s) := by
  -- `ERANGE` is also what is left when the rounds are used up, so it does not matter how many
  have hloop : ∀ rounds w, e = ERANGE ∨ 0 < rounds →
      (sizedRead.loop ask onOk .error rounds w).run h s = (.error e, s) := by
    intro rounds
    induction rounds with
    | zero =>
      rintro w (rfl | hrounds)
      · rfl
      · omega
    | succ rounds ih =>
      rintro w -
      obtain ⟨v, hv, he⟩ := hask w
      rw [sizedRead.loop, Prog.run_bind, hv]
      dsimp only
      rw [he]
      dsimp only
      split_ifs with hrange
      · exact ih _ (.inl hrange)
      · rfl
  exact hloop 4 _ (.inr (by decide))

/-- A read makes no other calls than the one it is for. -/
theorem sizedRead_trace {σ : Type} {h : Handler RegCall RegReply σ} {P : RegCall → Prop}
    (ask : (Fin n → Bytes) → RegProg (WindowReply n α))
    (hask : ∀ w s, ∀ ev ∈ (ask w).trace h s, P ev.1) (s : σ) :
    ∀ ev ∈ (sizedRead ask onOk onErr).trace h s, P ev.1 := by
  have hloop : ∀ rounds w s, ∀ ev ∈ (sizedRead.loop ask onOk onErr rounds w).trace h s, P ev.1 := by
    intro rounds
    induction rounds with
    | zero => simp [sizedRead.loop]
    | succ rounds ih =>
      intro w s ev hev
      rw [sizedRead.loop, Prog.trace_bind, List.mem_append] at hev
      rcases hev with hev | hev
      · exact hask w s ev hev
      · split at hev
        · simp at hev
        · split_ifs at hev
          · exact ih _ _ ev hev
          · simp at hev
  exact hloop 4 _ s

variable {items : Nat → Option (Item n α)} {h : Handler RegCall RegReply Nat}

/-- **The loop does what `Reads` describes**: it makes those calls, and returns what they saw. -/
theorem sizedRead_loop_reads
    (hrun : ∀ w k, ∃ rest, (ask w).run h k = (Item.answer (items k) w rest, k + 1))
    (hcalls : ∀ w k, (ask w).calls h k = [call w]) (rounds k : Nat) (w : Fin n → Bytes) :
    ∃ ws o, Reads items rounds k w ws o ∧
      (sizedRead.loop ask onOk onErr rounds w).calls h k = ws.map call ∧
      ((sizedRead.loop ask onOk onErr rounds w).run h k).1 = readResult onOk onErr o := by
  induction rounds generalizing k w with
  | zero => exact ⟨[], none, .exhausted k w, rfl, rfl⟩
  | succ rounds ih =>
    obtain ⟨rest, hw⟩ := hrun w k
    rw [sizedRead_loop_run onOk onErr rounds hw, sizedRead.loop, Prog.calls_bind, hw, hcalls]
    rcases hk : items k with _ | it
    · -- the item is not there, and `ENOENT` is no reason to go on
      refine ⟨[w], some none, .absent hk, ?_, rfl⟩
      simp [Item.answer, ENOENT, ERANGE]
    by_cases hfits : it.Fits w
    · refine ⟨[w], some (some it), .filled hk hfits, ?_, ?_⟩
      · simp [Item.answer, hfits]
      · simp [hfits, readResult]
    · -- a window is too small: the rest of the loop starts with room for this item
      obtain ⟨ws, o, hreads, hws, ho⟩ := ih (k + 1) it.room
      refine ⟨w :: ws, o, .refused hk hfits hreads, ?_, ?_⟩
      · rw [List.map_cons, ← hws]
        simp [Item.answer, hfits]
        rfl
      · rw [← ho]
        simp [hfits]

end Loop

/-! ### Atomicity -/

/-- A read `p` of the item `items k` sees at its `k`-th call is atomic: `isOf` says which `Ok`
results are an item, and `absent` is what the read returns when the item is not there. -/
structure AtomicRead (items : Nat → Option (Item n α)) (isOf : β → Item n α → Prop)
    (absent : Except Errno β) (call : (Fin n → Bytes) → RegCall)
    (h : Handler RegCall RegReply Nat) (p : RegProg (Except Errno β)) : Prop where
  calls_pos : 0 < (p.calls h 0).length
  calls_le : (p.calls h 0).length ≤ 4
  /-- An `Ok` result is the item as it was at the last call. -/
  ok : ∀ v, (p.run h 0).1 = .ok v → (p.run h 0).1 ≠ absent →
    ∃ it, items ((p.calls h 0).length - 1) = some it ∧ isOf v it
  /-- The item is reported absent only if it was at the last call. -/
  gone : (p.run h 0).1 = absent → items ((p.calls h 0).length - 1) = none
  /-- There are no other errors than that and `ERANGE`. -/
  error : ∀ e, (p.run h 0).1 = .error e → (p.run h 0).1 = absent ∨ e = ERANGE
  /-- Every call but the last found a window too small. -/
  refused : ∀ k, k + 1 < (p.calls h 0).length →
    ∃ it w, items k = some it ∧ (p.calls h 0)[k]? = some (call w) ∧ ¬ it.Fits w
  /-- If the item has not changed since such a call, the next one ends the read with it. -/
  settles : ∀ k, k + 1 < (p.calls h 0).length → items (k + 1) = items k →
    k + 2 = (p.calls h 0).length ∧
      ∃ it v, items (k + 1) = some it ∧ (p.run h 0).1 = .ok v ∧ isOf v it
  /-- `ERANGE` takes four calls each of which found a window too small. -/
  erange : (p.run h 0).1 = .error ERANGE → (p.calls h 0).length = 4 ∧
    ∀ k < 4, ∃ it w, items k = some it ∧ (p.calls h 0)[k]? = some (call w) ∧ ¬ it.Fits w

section Loop

variable {ask : (Fin n → Bytes) → RegProg (WindowReply n α)} {call : (Fin n → Bytes) → RegCall}
  (onOk : α → (Fin n → Bytes) → β) (onErr : Errno → Except Errno β)
  {items : Nat → Option (Item n α)} {isOf : β → Item n α → Prop} {h : Handler RegCall RegReply Nat}

theorem sizedRead_atomic
    (hrun : ∀ w k, ∃ rest, (ask w).run h k = (Item.answer (items k) w rest, k + 1))
    (hcalls : ∀ w k, (ask w).calls h k = [call w])
    (hisOf : ∀ it, isOf (onOk it.fields it.bytes) it)
    (hok : ∀ v w, .ok (onOk v w) ≠ onErr ENOENT) (herr : onErr ENOENT ≠ .error ERANGE) :
    AtomicRead items isOf (onErr ENOENT) call h (sizedRead ask onOk onErr) := by
  obtain ⟨ws, o, hreads, hws, ho⟩ :=
    sizedRead_loop_reads onOk onErr hrun hcalls 4 0 fun _ => []
  have hlen : ((sizedRead ask onOk onErr).calls h 0).length = ws.length := by
    rw [sizedRead, hws, List.length_map]
  have htoo : ∀ k, Reads.TooSmall items 0 ws k →
      ∃ it w, items k = some it ∧ ((sizedRead ask onOk onErr).calls h 0)[k]? = some (call w) ∧
        ¬ it.Fits w := by
    rintro k ⟨it, w, hit, hw, hfits⟩
    rw [Nat.zero_add] at hit
    exact ⟨it, w, hit, by rw [sizedRead, hws, List.getElem?_map, hw]; rfl, hfits⟩
  have hlast : ∀ item, o = some item → items (ws.length - 1) = item := by
    rintro item rfl
    rw [← hreads.last, Nat.zero_add]
  have hresult : ((sizedRead ask onOk onErr).run h 0).1 = readResult onOk onErr o := ho
  refine ⟨?_, ?_, ?_, ?_, ?_, ?_, ?_, ?_⟩
  · rw [hlen]
    rcases o with _ | item
    · rw [hreads.length_of_none]
      decide
    · exact hreads.length_pos
  · rw [hlen]
    exact hreads.length_le
  · intro v hv hne
    rw [hresult] at hv hne
    rw [hlen]
    rcases o with _ | _ | it
    · cases hv
    · exact absurd rfl hne
    · exact ⟨it, hlast _ rfl, Except.ok.inj hv ▸ hisOf it⟩
  · intro heq
    rw [hlen]
    exact hlast _ (eq_some_none_of_readResult hok herr (hresult ▸ heq))
  · intro e he
    rw [hresult] at he ⊢
    rcases o with _ | _ | it
    · exact .inr (Except.error.inj he).symm
    · exact .inl rfl
    · cases he
  · intro k hk
    rw [hlen] at hk
    exact htoo k (hreads.tooSmall k (by omega) (.inl hk))
  · intro k hk hsame
    rw [hlen] at hk ⊢
    have hs := hreads.settles k hk (by rwa [Nat.zero_add, Nat.zero_add])
    rw [Nat.zero_add] at hs
    obtain ⟨hend, it, hit, rfl⟩ := hs
    exact ⟨hend, it, _, hit, hresult, hisOf it⟩
  · intro heq
    obtain rfl := eq_none_of_readResult herr (hresult ▸ heq)
    have hfour := hreads.length_of_none
    rw [hlen]
    exact ⟨hfour, fun k hk => htoo k (hreads.tooSmall k (by omega) (.inr rfl))⟩

end Loop

/-! ### The reads of `Key` -/

/-- The value is this item: the first window is for the data, the second for the layer's name. -/
structure RegValue.IsOf (v : RegValue) (it : Item 2 ValueFields) : Prop where
  sequence : v.sequence = it.fields.sequence
  ty : v.ty = it.fields.ty
  data : v.data = it.bytes 0
  layer : v.layer = it.bytes 1

/-- The entry is this item: the first window is for the name, the second for the data. -/
structure EnumValue.IsOf (v : EnumValue) (it : Item 2 ValueType) : Prop where
  name : v.name = it.bytes 0
  ty : v.ty = it.fields
  data : v.data = it.bytes 1

/-- The entry is this item. -/
structure Subkey.IsOf (v : Subkey) (it : Item 1 SubkeyFields) : Prop where
  name : v.name = it.bytes 0
  lastWriteTime : v.lastWriteTime = it.fields.lastWriteTime
  subkeyCount : v.subkeyCount = it.fields.subkeyCount
  valueCount : v.valueCount = it.fields.valueCount

/-- The metadata is this item: a flag is set when the kernel's is not zero. -/
structure KeyInfo.IsOf (v : KeyInfo) (it : Item 1 KeyInfoFields) : Prop where
  name : v.name = it.bytes 0
  lastWriteTime : v.lastWriteTime = it.fields.lastWriteTime
  hiveGeneration : v.hiveGeneration = it.fields.hiveGeneration
  subkeyCount : v.subkeyCount = it.fields.subkeyCount
  valueCount : v.valueCount = it.fields.valueCount
  maxSubkeyNameLen : v.maxSubkeyNameLen = it.fields.maxSubkeyNameLen
  maxValueNameLen : v.maxValueNameLen = it.fields.maxValueNameLen
  maxValueDataSize : v.maxValueDataSize = it.fields.maxValueDataSize
  sdSize : v.sdSize = it.fields.sdSize
  volatile : v.volatile = true ↔ it.fields.volatileKey ≠ 0
  symlink : v.symlink = true ↔ it.fields.symlink ≠ 0

theorem RegValue.isOf_ofWindows (it : Item 2 ValueFields) :
    (RegValue.ofWindows it.fields it.bytes).IsOf it := ⟨rfl, rfl, rfl, rfl⟩

theorem EnumValue.isOf_ofWindows (it : Item 2 ValueType) :
    (EnumValue.ofWindows it.fields it.bytes).IsOf it := ⟨rfl, rfl, rfl⟩

theorem Subkey.isOf_ofWindows (it : Item 1 SubkeyFields) :
    (Subkey.ofWindows it.fields it.bytes).IsOf it := ⟨rfl, rfl, rfl, rfl⟩

theorem KeyInfo.isOf_ofWindows (it : Item 1 KeyInfoFields) :
    (KeyInfo.ofWindows it.fields it.bytes).IsOf it where
  name := rfl
  lastWriteTime := rfl
  hiveGeneration := rfl
  subkeyCount := rfl
  valueCount := rfl
  maxSubkeyNameLen := rfl
  maxValueNameLen := rfl
  maxValueDataSize := rfl
  sdSize := rfl
  volatile := decide_eq_true_iff
  symlink := decide_eq_true_iff

/-- What the calls see at one moment: the item each kind of read is about, and everything that is
not specified. -/
structure Observed where
  value : Option (Item 2 ValueFields)
  entry : Option (Item 2 ValueType)
  subkey : Option (Item 1 SubkeyFields)
  info : Option (Item 1 KeyInfoFields)
  other : (c : RegCall) → RegReply c

/-- What a call is answered at one moment. -/
def Observed.answer (o : Observed) : (c : RegCall) → RegReply c
  | .queryValue key name txn w => Item.answer o.value w (o.other (.queryValue key name txn w))
  | .enumValue key index txn w => Item.answer o.entry w (o.other (.enumValue key index txn w))
  | .enumSubkey key index txn w => Item.answer o.subkey w (o.other (.enumSubkey key index txn w))
  | .queryKeyInfo key w => Item.answer o.info w (o.other (.queryKeyInfo key w))
  | c => o.other c

/-- **The sized reads are atomic**, whatever the others do between their calls: `Key::query_value`,
`Key::enum_value`, `Key::enum_subkey` and `Key::info` return the item as it was at their last call,
field by field, report it absent only if it was, and give up only after four calls that found a
window too small. -/
theorem sizedReads_atomic (sched : Nat → Observed) (key : Key) (name : Bytes) (index : UInt32)
    (txn : Option Transaction) :
    AtomicRead (fun k => (sched k).value) RegValue.IsOf
      (.error ENOENT) (fun w => .queryValue key (bytesU32 name) txn w)
      (.scheduled Observed.answer sched) (key.queryValue name txn) ∧
    AtomicRead (fun k => (sched k).entry) (fun v it => ∃ e, v = some e ∧ EnumValue.IsOf e it)
      (.ok none) (fun w => .enumValue key index txn w)
      (.scheduled Observed.answer sched) (key.enumValue index txn) ∧
    AtomicRead (fun k => (sched k).subkey) (fun v it => ∃ e, v = some e ∧ Subkey.IsOf e it)
      (.ok none) (fun w => .enumSubkey key index txn w)
      (.scheduled Observed.answer sched) (key.enumSubkey index txn) ∧
    AtomicRead (fun k => (sched k).info) KeyInfo.IsOf
      (.error ENOENT) (fun w => .queryKeyInfo key w)
      (.scheduled Observed.answer sched) key.info := by
  refine ⟨?_, ?_, ?_, ?_⟩
  · exact sizedRead_atomic RegValue.ofWindows .error (fun w k => ⟨_, rfl⟩) (fun w k => rfl)
      RegValue.isOf_ofWindows (by simp) (by decide)
  · exact sizedRead_atomic (fun ty w => some (EnumValue.ofWindows ty w)) noneOnENOENT
      (fun w k => ⟨_, rfl⟩) (fun w k => rfl) (fun it => ⟨_, rfl, EnumValue.isOf_ofWindows it⟩)
      (by simp [noneOnENOENT]) (by decide)
  · exact sizedRead_atomic (fun v w => some (Subkey.ofWindows v w)) noneOnENOENT
      (fun w k => ⟨_, rfl⟩) (fun w k => rfl) (fun it => ⟨_, rfl, Subkey.isOf_ofWindows it⟩)
      (by simp [noneOnENOENT]) (by decide)
  · exact sizedRead_atomic KeyInfo.ofWindows .error (fun w k => ⟨_, rfl⟩) (fun w k => rfl)
      KeyInfo.isOf_ofWindows (by simp) (by decide)

end Peios.Registry
