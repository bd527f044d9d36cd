import Peios.Interaction.Shared
import Peios.Registry.Equiv.LayerRead

/-!
# Reading layers while one is changed

One process creates a layer or sets one of its values, and another reads layers, with their calls in
any order.  Only the last call of the first changes the store (`onlyBefore_run`), and a key that was
there before keeps all of its values but one (`keepsKeys_run`).

A read asks for each value once, and no two of its answers can tell different stores apart
(`sameKey`).  So `reads_turnOnce`: the reads return what the store was until some read, and from
there on what it has become.
-/

namespace Peios.Registry.Layers

open Interaction Prog ByteString Security Store

variable {fold : Bytes → Bytes} {lib : SidLib} {lower : String → String} {name : String}

/-! ### Two processes -/

/-- The registry's answers to the calls of a process, whose handles are its own. -/
def answers (fold : Bytes → Bytes) : Handler RegCall RegReply (Store fold × List Object) := fun c x =>
  let y := registry c { store := x.1, objects := x.2 }
  (y.1, y.2.store, y.2.objects)

/-- The state that a process works in which has made some number of calls. -/
def faultyState (x : Store fold × Nat × List Object) : Nat × State fold :=
  (x.2.1, { store := x.1, objects := x.2.2 })

/-- The registry's answers to the methods of a process when the `n`-th of them fails as `outcome n`
says.  The methods of a function that changes layers make one call at most. -/
def faultyAnswers (fold : Bytes → Bytes) (outcome : Nat → Option Errno) :
    Handler KeyCall KeyReply (Store fold × Nat × List Object) := fun c x =>
  let y := faultyKeys outcome c (faultyState x)
  (y.1, y.2.2.store, y.2.1, y.2.2.objects)

/-- A process that has the store to itself. -/
theorem run_faultyAnswers {α : Type} (outcome : Nat → Option Errno) (p : KeyProg α)
    (x : Store fold × Nat × List Object) :
    (p.run.run (faultyAnswers fold outcome) x).2.1
      = (exec (faultyKeys outcome) p (faultyState x)).2.2.store := by
  have hcall : ∀ c (y : Store fold × Nat × List Object) (u : Nat × State fold),
      u = faultyState y →
      (faultyAnswers fold outcome c y).1 = (faultyKeys outcome c u).1 ∧
        (faultyKeys outcome c u).2 = faultyState (faultyAnswers fold outcome c y).2 := by
    rintro c y _ rfl
    exact ⟨rfl, rfl⟩
  have hstart : faultyState x = faultyState x := rfl
  have hcongr := (run_congr _ hcall p.run hstart).2
  rw [exec, hcongr]
  rfl

/-! ### Changing a layer -/

variable {outcome : Nat → Option Errno}

theorem keeps_of_enlisted {c : KeyCall} (hc : Enlisted c) :
    Keeps (faultyAnswers fold outcome) c := by
  rintro w ⟨n, objects⟩
  show (faultyKeys outcome c (n, ({ store := w, objects } : State fold))).2.2.store = w
  rcases ho : outcome n with _ | e
  · rw [faultyKeys, Handler.faulty_of_none ho]
    exact keys_store hc _
  · rw [faultyKeys, Handler.faulty_of_some ho]

/-- A function whose calls are in a transaction, or open keys, but for the last. -/
theorem onlyBefore_bind {α β : Type} {p : KeyProg α} {f : α → KeyProg β}
    (hp : CallsOnly Enlisted p)
    (hf : ∀ a, (f a).run.OnlyBefore (Keeps (faultyAnswers fold outcome))) :
    (p >>= f).run.OnlyBefore (Keeps (faultyAnswers fold outcome)) := by
  have hreply : ∀ c : KeyCall, Nonempty (KeyReply c) := fun c => ⟨.error ENOENT⟩
  rw [ExceptT.run_bind]
  refine .bind ((only_of_path fun evs r => hp evs r).mono fun c => keeps_of_enlisted) ?_
  rintro (e | a)
  · trivial
  · exact hf a

theorem onlyBefore_ask {P : KeyCall → Prop} (c : KeyCall) : c.ask.run.OnlyBefore P :=
  .inr fun r => ⟨ofResult r, rfl⟩

theorem onlyBefore_set {value : String} {ty : ValueType} {data : Bytes} :
    (set lower name value ty data).run.OnlyBefore
      (Keeps (faultyAnswers fold outcome)) := by
  unfold set
  split_ifs
  · trivial
  · exact onlyBefore_bind (callsOnly_ask trivial) fun key => onlyBefore_ask _

/-- **A function that changes a layer, or makes one, changes the store with its last call.** -/
theorem onlyBefore_run {op : LayerOp} (hop : op ≠ .delete) :
    (op.run lower name).run.OnlyBefore (Keeps (faultyAnswers fold outcome)) := by
  cases op with
  | create precedence enabled =>
    show (create lower name precedence enabled).run.OnlyBefore _
    by_cases hname : IsLayerName lower name
    · rw [create_eq hname]
      exact onlyBefore_bind callsOnly_prepare fun txn => onlyBefore_ask _
    · rw [create_of_not hname]
      trivial
  | delete => exact absurd rfl hop
  | _ => exact onlyBefore_set

/-- The keys of a store are there in another, open to whom they were, and have the same values but
for one. -/
def KeepsKeys (before after : Store fold) : Prop :=
  ∀ path e, before.find? path = some e → ∃ e', after.find? path = some e' ∧
    e'.value.refuses = e.value.refuses ∧
    ∃ changed, ∀ value, value ≠ changed → e'.value.values value = e.value.values value

theorem KeepsKeys.refl (store : Store fold) : KeepsKeys store store :=
  fun _ e he => ⟨e, he, rfl, [], fun _ _ => rfl⟩

theorem KeepsKeys.of_createsLayer {before after : Store fold} {precedence : UInt32} {enabled : Bool}
    (h : CreatesLayer before after name precedence enabled) : KeepsKeys before after := by
  intro path e he
  refine ⟨e, ?_, rfl, [], fun _ _ => rfl⟩
  by_cases hregistry : path = registryPath fold
  · rw [hregistry] at he ⊢
    rw [h.registry, he, Option.getD_some]
  by_cases hlayers : path = layersPath fold
  · rw [hlayers] at he ⊢
    rw [h.layers, he, Option.getD_some]
  · rw [← he]
    refine h.others path hregistry hlayers ?_
    rintro rfl
    rw [h.absent] at he
    cases he

/-- Writing a value. -/
theorem KeepsKeys.write (store : Store fold) (path : List Bytes) (value : Bytes) (ty : ValueType)
    (data : Bytes) : KeepsKeys store (store.modify path (.write value ty data)) := by
  intro q e he
  rw [Directory.find?_modify, he]
  split_ifs
  · refine ⟨{ e with value := e.value.write value ty data }, rfl, rfl, value, ?_⟩
    intro other hother
    show (e.value.write value ty data).values other = _
    exact Function.update_of_ne hother _ _
  · exact ⟨e, rfl, rfl, value, fun _ _ => rfl⟩

theorem keepsKeys_setValue {v : SetValue} (hv : v.txn = none) (s : State fold) :
    KeepsKeys s.store (keys (.setValue v) s).2.store := by
  show KeepsKeys s.store (v.call.run registry s).2.store
  unfold SetValue.call
  rw [hv]
  rcases CString.newOption v.layer with e | layer
  · exact .refl _
  · show KeepsKeys s.store (s.setValue _ _ _ _ _ none _).2.store
    unfold State.setValue onKey
    split_ifs
    · exact .refl _
    · split
      · split
        · exact .refl _
        · exact .write _ _ _ _ _
      · exact .refl _

theorem keepsKeys_set {value : String} {ty : ValueType} {data : Bytes} (u : Nat × State fold) :
    KeepsKeys u.2.store
      (exec (faultyKeys outcome) (set lower name value ty data) u).2.2.store := by
  unfold set
  split_ifs
  · exact .refl _
  have hcalls : CallsOnly Enlisted (openLayer name KeyAccess.SET_VALUE) := callsOnly_ask trivial
  have hopened : (exec (faultyKeys outcome) (openLayer name KeyAccess.SET_VALUE) u).2.2.store
      = u.2.store := store_of_enlisted hcalls u
  rcases hexec : exec (faultyKeys outcome) (openLayer name KeyAccess.SET_VALUE) u with ⟨e | key, u'⟩
  · rw [hexec] at hopened
    rw [exec_bind_error hexec]
    show KeepsKeys u.2.store u'.2.store
    rw [hopened]
    exact .refl _
  · rw [hexec] at hopened
    rw [exec_bind_ok hexec, exec_ask, ← hopened]
    -- the value is written, or the call fails and nothing is
    obtain ⟨n, s⟩ := u'
    rcases ho : outcome n with _ | e
    · rw [faultyKeys, Handler.faulty_of_none ho]
      exact keepsKeys_setValue rfl s
    · rw [faultyKeys, Handler.faulty_of_some ho]
      exact .refl _

/-- **A key that was there keeps all of its values but one.** -/
theorem keepsKeys_run (lower : String → String) (name : String) (outcome : Nat → Option Errno)
    {op : LayerOp} (hop : op ≠ .delete) (u : Nat × State fold) :
    KeepsKeys u.2.store (exec (faultyKeys outcome) (op.run lower name) u).2.2.store := by
  cases op with
  | create precedence enabled =>
    show KeepsKeys u.2.store
      (exec (faultyKeys outcome) (create lower name precedence enabled) u).2.2.store
    by_cases hname : IsLayerName lower name
    · have h : AllOrNothing name precedence enabled u.2.store _
          (events (faultyKeys outcome) (create lower name precedence enabled) u) _ :=
        allOrNothing_of_isLayerName hname u
      rcases hr : (exec (faultyKeys outcome) (create lower name precedence enabled) u).1 with e | _
      · rw [h.error e hr]
        exact .refl _
      · exact .of_createsLayer (h.ok hr)
    · rw [create_of_not hname]
      exact .refl _
  | delete => exact absurd rfl hop
  | _ => exact keepsKeys_set u

/-! ### Reading a value -/

section Reading

variable {before after start : Store fold} {x y : Store fold × List Object} {fd : Fd}
  {path : List Bytes} {e e' : Directory.Entry KeyName Bytes KeyBody}

/-- The state that a process works in. -/
def stateOf (x : Store fold × List Object) : State fold := { store := x.1, objects := x.2 }

/-- A program beside another whose last call turns the store from `before` into `after`. -/
abbrev Beside (before after : Store fold) {α : Type} (P : Store fold × List Object → Prop)
    (p : RegProg α) (Q : α → Store fold × List Object → Prop) : Prop :=
  Ensures (Together.Turns before after) (answers fold).step P p Q

/-- The store is as it was at some time, or as it is in the end. -/
def Reached (start after : Store fold) (x : Store fold × List Object) : Prop :=
  x.1 = start ∨ x.1 = after

/-- The key is open. -/
def Holds (fd : Fd) (path : List Bytes) (x : Store fold × List Object) : Prop :=
  (stateOf x).path fd = some path

theorem stable_after : Stable (Together.Turns before after)
    fun x : Store fold × List Object => x.1 = after := by
  rintro x _ ⟨-, rfl⟩ -
  rfl

theorem stable_reached : Stable (Together.Turns before after)
    (Reached start after) := by
  rintro x _ ⟨-, rfl⟩ -
  exact .inr rfl

theorem stable_holds : Stable (Together.Turns before after) (Holds fd path) := by
  rintro x _ ⟨-, rfl⟩ hx
  exact hx

/-- A query of a value finds what the key has. -/
theorem answers_queryValue (hx : Holds fd path x) (he : x.1.find? path = some e) (value : Bytes)
    (w : Fin 2 → Bytes) :
    answers fold (.queryValue fd value none w) x
      = (valueAnswer (e.value.values value) w
          (RegReply.failed ENOENT (.queryValue fd value none w)), x) := by
  have hx : (stateOf x).path fd = some path := hx
  have hview : (stateOf x).view none = some x.1 := rfl
  show ((registry (.queryValue fd value none w) (stateOf x)).1, _) = _
  simp only [registry, onKey, hx, hview, he]

/-- The rounds of a query of a value. -/
abbrev queryLoop (fd : Fd) (value : Bytes) (rounds : Nat) (w : Fin 2 → Bytes) :
    RegProg (Except Errno RegValue) :=
  sizedRead.loop (fun w => sys (.queryValue fd value none w)) RegValue.ofWindows .error rounds w

/-- What follows the answer to one of its calls. -/
def afterQuery (fd : Fd) (value : Bytes) (rounds : Nat) (v : WindowReply 2 ValueFields) :
    RegProg (Except Errno RegValue) :=
  match v.errno with
  | none => return .ok (.ofWindows v.fields fun i => (v.windows i).take (v.lens i).toNat)
  | some e =>
    if e = ERANGE then queryLoop fd value rounds fun i => List.replicate (v.lens i).toNat 0
    else return .error e

theorem queryLoop_succ (fd : Fd) (value : Bytes) (rounds : Nat) (w : Fin 2 → Bytes) :
    queryLoop fd value (rounds + 1) w
      = .call (.queryValue fd value none w) (afterQuery fd value rounds) := rfl

variable {value : Bytes} {rounds : Nat} {w : Fin 2 → Bytes} {rest : WindowReply 2 ValueFields}
  {errno : Errno} {it : Item 2 ValueFields}

theorem afterQuery_error (he : errno ≠ ERANGE) :
    afterQuery fd value rounds (valueAnswer (.error errno) w rest) = .ret (.error errno) := by
  unfold afterQuery valueAnswer
  exact if_neg he

theorem afterQuery_range :
    ∃ w', afterQuery fd value rounds (valueAnswer (.error ERANGE) w rest)
      = queryLoop fd value rounds w' := ⟨_, rfl⟩

theorem afterQuery_fits (hfits : it.Fits w) :
    afterQuery fd value rounds (valueAnswer (.ok it) w rest) = .ret (.ok (regValue it)) := by
  unfold afterQuery valueAnswer Item.answer
  dsimp only
  rw [if_pos hfits]
  dsimp only
  rw [take_answer]
  rfl

theorem afterQuery_room (hfits : ¬ it.Fits w) :
    afterQuery fd value rounds (valueAnswer (.ok it) w rest)
      = queryLoop fd value rounds it.room := by
  unfold afterQuery valueAnswer Item.answer
  dsimp only
  rw [if_neg hfits]
  rfl

/-- What a query returns of what is stored. -/
def queried (stored : Except Errno (Item 2 ValueFields)) : Except Errno RegValue :=
  stored.map regValue

/-- So many rounds are enough to read what is stored, when nobody changes it. -/
def Enough (stored : Except Errno (Item 2 ValueFields)) (rounds : Nat) (w : Fin 2 → Bytes) :
    Prop :=
  stored = .error ERANGE ∨ 2 ≤ rounds ∨ 1 ≤ rounds ∧ ∀ it, stored = .ok it → it.Fits w

variable {F : Store fold × List Object → Prop}

/-- A query in a store that no longer turns returns what is stored, or runs out of rounds. -/
theorem beside_queryLoop_settled (hF : Stable (Together.Turns before after) F)
    (hholds : ∀ x, F x → Holds fd path x) (he : after.find? path = some e) (rounds : Nat)
    (w : Fin 2 → Bytes) :
    Beside before after (fun x => F x ∧ x.1 = after) (queryLoop fd value rounds w)
      fun r x => (F x ∧ x.1 = after) ∧ (r = queried (e.value.values value) ∨
        ¬ Enough (e.value.values value) rounds w ∧ r = .error ERANGE) := by
  have hstable : Stable (Together.Turns before after) fun x => F x ∧ x.1 = after :=
    hF.and stable_after
  induction rounds generalizing w with
  | zero =>
    rintro x r y hx hrun
    obtain ⟨rfl, hxy⟩ := Concurrent.ret_inv hrun
    refine ⟨hstable.of_reflTransGen hxy hx, ?_⟩
    by_cases henough : Enough (e.value.values value) 0 w
    · rcases henough with hrange | h | ⟨h, -⟩
      · exact .inl (by rw [hrange]; rfl)
      · omega
      · omega
    · exact .inr ⟨henough, rfl⟩
  | succ rounds ih =>
    intro x r y hx hrun
    rw [queryLoop_succ] at hrun
    obtain ⟨t, v, t', hxt, hcall, hrest⟩ := hrun.call_inv
    obtain ⟨ht, rfl⟩ := hstable.of_reflTransGen hxt hx
    have hanswer := answers_queryValue (hholds t ht) he value w
    obtain ⟨rfl, rfl⟩ := Prod.mk.inj (hanswer.symm.trans hcall)
    rcases hstored : e.value.values value with errno | it
    · rw [hstored] at hrest
      by_cases hrange : errno = ERANGE
      · -- whatever is left of the rounds
        subst hrange
        obtain ⟨w', hw'⟩ := afterQuery_range
        rw [hw'] at hrest
        obtain ⟨hy, hr⟩ := ih w' t r y ⟨ht, rfl⟩ hrest
        rw [hstored] at hr
        exact ⟨hy, .inl (hr.resolve_right fun h => h.1 (.inl rfl))⟩
      · rw [afterQuery_error hrange] at hrest
        obtain ⟨hr, hty⟩ := hrest.ret_inv
        exact ⟨hstable.of_reflTransGen hty ⟨ht, rfl⟩, .inl hr⟩
    · rw [hstored] at hrest
      by_cases hfits : it.Fits w
      · rw [afterQuery_fits hfits] at hrest
        obtain ⟨hr, hty⟩ := hrest.ret_inv
        exact ⟨hstable.of_reflTransGen hty ⟨ht, rfl⟩, .inl hr⟩
      · rw [afterQuery_room hfits] at hrest
        obtain ⟨hy, hr⟩ := ih it.room t r y ⟨ht, rfl⟩ hrest
        rw [hstored] at hr
        refine ⟨hy, hr.imp_right fun ⟨hnot, hr⟩ => ⟨?_, hr⟩⟩
        -- there is room in the next round, so this one was the last
        rintro (hrange | h | ⟨-, hfits'⟩)
        · cases hrange
        · refine hnot (.inr (.inr ⟨by omega, ?_⟩))
          rintro _ ⟨⟩
          exact it.fits_room
        · exact hfits (hfits' it rfl)

/-- What is known of a query's result: it is what was stored, or what is stored in the end. -/
def Saw (before after : Except Errno (Item 2 ValueFields)) (store : Store fold)
    (r : Except Errno RegValue) (x : Store fold × List Object) : Prop :=
  r = queried before ∨ r = queried after ∧ x.1 = store

/-- **A query while the store may turn returns what was stored or what is stored in the end**: one
more round makes up for the turn. -/
theorem beside_queryLoop (hF : Stable (Together.Turns before after) F)
    (hholds : ∀ x, F x → Holds fd path x) (he : start.find? path = some e)
    (he' : after.find? path = some e') (rounds : Nat) (w : Fin 2 → Bytes)
    (hrounds : e.value.values value = .error ERANGE ∨ 3 ≤ rounds ∨
      2 ≤ rounds ∧ ∀ it, e.value.values value = .ok it → it.Fits w) :
    Beside before after (fun x => F x ∧ Reached start after x)
      (queryLoop fd value rounds w) fun r x => (F x ∧ Reached start after x) ∧
        Saw (e.value.values value) (e'.value.values value) after r x := by
  have hstable : Stable (Together.Turns before after)
      fun x => F x ∧ Reached start after x := hF.and stable_reached
  induction rounds generalizing w with
  | zero =>
    rintro x r y hx hrun
    obtain ⟨rfl, hxy⟩ := Concurrent.ret_inv hrun
    refine ⟨hstable.of_reflTransGen hxy hx, .inl ?_⟩
    rcases hrounds with hrange | h | ⟨h, -⟩
    · rw [hrange]
      rfl
    · omega
    · omega
  | succ rounds ih =>
    intro x r y hx hrun
    rw [queryLoop_succ] at hrun
    obtain ⟨t, v, t', hxt, hcall, hrest⟩ := hrun.call_inv
    obtain ⟨ht, hstore | hstore⟩ := hstable.of_reflTransGen hxt hx
    · -- the store has not turned
      have hanswer := answers_queryValue (hholds t ht) (hstore ▸ he) value w
      obtain ⟨rfl, rfl⟩ := Prod.mk.inj (hanswer.symm.trans hcall)
      rcases hstored : e.value.values value with errno | it
      · rw [hstored] at hrest
        by_cases hrange : errno = ERANGE
        · subst hrange
          obtain ⟨w', hw'⟩ := afterQuery_range
          rw [hw'] at hrest
          have hy := ih w' (.inl hstored) t r y ⟨ht, .inl hstore⟩ hrest
          rwa [hstored] at hy
        · rw [afterQuery_error hrange] at hrest
          obtain ⟨hr, hty⟩ := hrest.ret_inv
          exact ⟨hstable.of_reflTransGen hty ⟨ht, .inl hstore⟩, .inl hr⟩
      · rw [hstored] at hrest hrounds
        by_cases hfits : it.Fits w
        · rw [afterQuery_fits hfits] at hrest
          obtain ⟨hr, hty⟩ := hrest.ret_inv
          exact ⟨hstable.of_reflTransGen hty ⟨ht, .inl hstore⟩, .inl hr⟩
        · rw [afterQuery_room hfits] at hrest
          have henough : 3 ≤ rounds + 1 := by
            rcases hrounds with h | h | ⟨-, hfits'⟩
            · cases h
            · exact h
            · exact absurd (hfits' it rfl) hfits
          have hy := ih it.room (.inr (.inr ⟨by omega, fun it' hit' => ?_⟩)) t r y
            ⟨ht, .inl hstore⟩ hrest
          · rwa [hstored] at hy
          · rw [hstored] at hit'
            obtain rfl := Except.ok.inj hit'
            exact it.fits_room
    · -- it has, and the rounds that are left are enough
      have hrun : Concurrent (Together.Turns before after) (answers fold).step t
          (queryLoop fd value (rounds + 1) w) r y := .call hcall hrest
      obtain ⟨⟨hy, hafter⟩, hr⟩ :=
        beside_queryLoop_settled hF hholds he' (rounds + 1) w t r y ⟨ht, hstore⟩ hrun
      refine ⟨⟨hy, .inr hafter⟩, ?_⟩
      rcases hr with hr | ⟨hnot, hr⟩
      · exact .inr ⟨hr, hafter⟩
      · rcases hrounds with hrange | h | ⟨h, -⟩
        · refine .inl ?_
          rw [hr, hrange]
          rfl
        · exact absurd (.inr (.inl (by omega))) hnot
        · exact absurd (.inr (.inl (by omega))) hnot

/-! ### Reading a layer -/

/-- The steps of a method beside a program whose last call turns the store. -/
def methodStep (before after : Store fold) (c : KeyCall) (x : Store fold × List Object)
    (r : KeyReply c) (y : Store fold × List Object) : Prop :=
  Concurrent (Together.Turns before after) (answers fold).step x c.impl r y

/-- A function over the methods, beside such a program. -/
abbrev BesideE (before after : Store fold) {α : Type} (P : Store fold × List Object → Prop)
    (p : KeyProg α) (Q : α → Store fold × List Object → Prop)
    (E : Fault → Store fold × List Object → Prop) : Prop :=
  EnsuresE (Together.Turns before after) (methodStep before after) P p Q E

/-- What `read` takes the result of a query for. -/
def dataOf (r : Except Errno RegValue) : Outcome (Option Data) :=
  match r with
  | .ok value => .ok (some (Data.decode value.ty value.data))
  | .error e => if e = ENOENT then .ok none else .error (.errno e)

theorem valueOf_eq (key : KeyBody) (value : String) :
    valueOf key value = dataOf (queried (key.values (utf8 value))) := by
  unfold valueOf
  rcases key.values (utf8 value) with e | item
  · rfl
  · rfl

/-- What is known of a value that was read. -/
def SawData (key key' : KeyBody) (store : Store fold) (value : String)
    (o : Outcome (Option Data)) (x : Store fold × List Object) : Prop :=
  o = valueOf key value ∨ o = valueOf key' value ∧ x.1 = store

theorem Saw.data {key key' : KeyBody} {store : Store fold} {value : String}
    {r : Except Errno RegValue}
    (h : Saw (key.values (utf8 value)) (key'.values (utf8 value)) store r x) :
    SawData key key' store value (dataOf r) x := by
  rcases h with rfl | ⟨rfl, hx⟩
  · exact .inl (valueOf_eq key value).symm
  · exact .inr ⟨(valueOf_eq key' value).symm, hx⟩

theorem stable_sawData (key key' : KeyBody) (value : String) (o : Outcome (Option Data)) :
    Stable (Together.Turns before after) (SawData key key' after value o) :=
  fun x y hxy h => h.imp_right fun ⟨ho, hx⟩ => ⟨ho, stable_after x y hxy hx⟩

/-- The value of a key that is open. -/
theorem besideE_queryValue (hF : Stable (Together.Turns before after) F)
    (hholds : ∀ x, F x → Holds fd path x) (he : start.find? path = some e)
    (he' : after.find? path = some e') (value : String) (hvalue : (utf8 value).length < 2 ^ 32) :
    BesideE before after (fun x => F x ∧ Reached start after x) (queryValue fd value)
      (fun d x => (F x ∧ Reached start after x) ∧
        SawData e.value e'.value after value (.ok d) x)
      fun f x => (F x ∧ Reached start after x) ∧
        SawData e.value e'.value after value (.error f) x := by
  have hopen : Stable (Together.Turns before after)
      fun x => F x ∧ Reached start after x := hF.and stable_reached
  have hsaw : ∀ r, Stable (Together.Turns before after) fun x : Store fold × List Object =>
      (F x ∧ Reached start after x) ∧ SawData e.value e'.value after value (dataOf r) x :=
    fun r => hopen.and (stable_sawData _ _ _ _)
  have hok : ∀ d, Stable (Together.Turns before after) fun x : Store fold × List Object =>
      (F x ∧ Reached start after x) ∧ SawData e.value e'.value after value (.ok d) x :=
    fun d => hopen.and (stable_sawData _ _ _ _)
  have herror : ∀ f, Stable (Together.Turns before after) fun x : Store fold × List Object =>
      (F x ∧ Reached start after x) ∧ SawData e.value e'.value after value (.error f) x :=
    fun f => hopen.and (stable_sawData _ _ _ _)
  unfold queryValue
  refine .bind (M := fun r x => (F x ∧ Reached start after x) ∧
    SawData e.value e'.value after value (dataOf r) x) herror ?_ fun r => ?_
  · refine .lift hopen hsaw herror fun x r y hx hcall => ?_
    have hcall : Concurrent (Together.Turns before after) (answers fold).step x
        (queryLoop fd (bytesU32 (utf8 value)) 4 fun _ => []) r y := hcall
    rw [bytesU32_of_lt hvalue] at hcall
    have hrounds : 3 ≤ 4 := by decide
    obtain ⟨hy, hr⟩ := beside_queryLoop hF hholds he he' 4 _ (.inr (.inl hrounds)) x r y hx hcall
    refine ⟨fun r' hr' => ?_, fun f hf => ?_⟩
    · obtain rfl := Except.ok.inj hr'
      exact ⟨hy, hr.data⟩
    · cases hf
  · rcases r with errno | v
    · dsimp only
      unfold dataOf
      dsimp only
      split_ifs
      · exact .pure (hok _) fun x hx => hx
      · exact .throw (herror _) fun x hx => hx
    · exact .pure (hok _) fun x hx => hx

/-- The layer that three values say. -/
def layerFrom (lib : SidLib) (name : String) (precedence enabled owner : Outcome (Option Data)) :
    Outcome Layer := do
  let precedence ← precedence
  let enabled ← enabled
  let owner ← ownerOf lib (← owner)
  return {
    name
    precedence := (precedenceOf precedence).1
    enabled := (enabledOf enabled).1
    owner := owner.1
    malformed := (precedenceOf precedence).2 || (enabledOf enabled).2 || owner.2 }

theorem layerOf_eq (lib : SidLib) (name : String) (key : KeyBody) :
    layerOf lib name key = layerFrom lib name (valueOf key "Precedence") (valueOf key "Enabled")
      (valueOf key "Owner") := rfl

/-- The keys have the same values but for one. -/
def SameBut (key key' : KeyBody) : Prop :=
  ∃ changed, ∀ value, value ≠ changed → key'.values value = key.values value

/-- A value that did not change was read as either key has it. -/
theorem SawData.both {key key' : KeyBody} {store : Store fold} {value : String}
    {o : Outcome (Option Data)} (h : SawData key key' store value o x)
    (hsame : key'.values (utf8 value) = key.values (utf8 value)) :
    o = valueOf key value ∧ o = valueOf key' value := by
  have heq : valueOf key' value = valueOf key value := by rw [valueOf_eq, valueOf_eq, hsame]
  rcases h with rfl | ⟨rfl, -⟩
  · exact ⟨rfl, heq.symm⟩
  · exact ⟨heq, rfl⟩

/-- **Three values that were read are those of one key**: only one of them can tell the keys
apart. -/
theorem sameKey {key key' : KeyBody} {store : Store fold} {o₁ o₂ o₃ : Outcome (Option Data)}
    (hsame : SameBut key key') (h₁ : SawData key key' store "Precedence" o₁ x)
    (h₂ : SawData key key' store "Enabled" o₂ x) (h₃ : SawData key key' store "Owner" o₃ x)
    (lib : SidLib) (name : String) :
    layerFrom lib name o₁ o₂ o₃ = layerOf lib name key ∨
      layerFrom lib name o₁ o₂ o₃ = layerOf lib name key' ∧ x.1 = store := by
  obtain ⟨changed, hsame⟩ := hsame
  rw [layerOf_eq, layerOf_eq]
  by_cases hprecedence : utf8 "Precedence" = changed
  · obtain ⟨hold₂, hnew₂⟩ := h₂.both (hsame _ (hprecedence ▸ by decide))
    obtain ⟨hold₃, hnew₃⟩ := h₃.both (hsame _ (hprecedence ▸ by decide))
    refine h₁.imp (fun hold₁ => ?_) fun ⟨hnew₁, hx⟩ => ⟨?_, hx⟩
    · rw [hold₁, ← hold₂, ← hold₃]
    · rw [hnew₁, ← hnew₂, ← hnew₃]
  obtain ⟨hold₁, hnew₁⟩ := h₁.both (hsame _ hprecedence)
  by_cases henabled : utf8 "Enabled" = changed
  · obtain ⟨hold₃, hnew₃⟩ := h₃.both (hsame _ (henabled ▸ by decide))
    refine h₂.imp (fun hold₂ => ?_) fun ⟨hnew₂, hx⟩ => ⟨?_, hx⟩
    · rw [← hold₁, hold₂, ← hold₃]
    · rw [← hnew₁, hnew₂, ← hnew₃]
  obtain ⟨hold₂, hnew₂⟩ := h₂.both (hsame _ henabled)
  refine h₃.imp (fun hold₃ => ?_) fun ⟨hnew₃, hx⟩ => ⟨?_, hx⟩
  · rw [← hold₁, ← hold₂, hold₃]
  · rw [← hnew₁, ← hnew₂, hnew₃]

/-- What is known of a layer that was read. -/
def SawLayer (r r' : Outcome Layer) (store : Store fold) (o : Outcome Layer)
    (x : Store fold × List Object) : Prop := o = r ∨ o = r' ∧ x.1 = store

theorem stable_sawLayer (r r' o : Outcome Layer) :
    Stable (Together.Turns before after) fun x : Store fold × List Object =>
      Reached start after x ∧ SawLayer r r' after o x :=
  stable_reached.and fun x y hxy h => h.imp_right fun ⟨ho, hx⟩ => ⟨ho, stable_after x y hxy hx⟩

/-- What `read` does once it has the layer's key. -/
def readOpen (lib : SidLib) (name : String) (key : Key) : KeyProg Layer := do
  let (precedence, malformed₁) := precedenceOf (← queryValue key "Precedence")
  let (enabled, malformed₂) := enabledOf (← queryValue key "Enabled")
  let (owner, malformed₃) ← ExceptT.mk (pure (ownerOf lib (← queryValue key "Owner")))
  return { name, precedence, enabled, owner, malformed := malformed₁ || malformed₂ || malformed₃ }

theorem read_eq (lib : SidLib) (name : String) :
    read lib name = openLayer name KeyAccess.QUERY_VALUE >>= readOpen lib name := rfl

theorem besideE_readOpen (before : Store fold) (he : start.find? path = some e)
    (he' : after.find? path = some e') (hsame : SameBut e.value e'.value) (lib : SidLib) (name : String) :
    BesideE before after (fun x => Holds fd path x ∧ Reached start after x) (readOpen lib name fd)
      (fun layer x => Reached start after x ∧ SawLayer (layerOf lib name e.value)
        (layerOf lib name e'.value) after (.ok layer) x)
      fun f x => Reached start after x ∧ SawLayer (layerOf lib name e.value)
        (layerOf lib name e'.value) after (.error f) x := by
  have hstable : ∀ o, Stable (Together.Turns before after) fun x : Store fold × List Object =>
      Reached start after x ∧
        SawLayer (layerOf lib name e.value) (layerOf lib name e'.value) after o x :=
    fun o => stable_sawLayer _ _ o
  -- what has been read so far stays known
  let F₁ (d : Option Data) (x : Store fold × List Object) : Prop :=
    Holds fd path x ∧ SawData e.value e'.value after "Precedence" (.ok d) x
  let F₂ (d d' : Option Data) (x : Store fold × List Object) : Prop :=
    F₁ d x ∧ SawData e.value e'.value after "Enabled" (.ok d') x
  have hF₁ : ∀ d, Stable (Together.Turns before after) (F₁ d) :=
    fun d => stable_holds.and (stable_sawData _ _ _ _)
  have hF₂ : ∀ d d', Stable (Together.Turns before after) (F₂ d d') :=
    fun d d' => (hF₁ d).and (stable_sawData _ _ _ _)
  unfold readOpen
  refine .bind (M := fun d x => F₁ d x ∧ Reached start after x) (fun f => hstable _) ?_
    fun d₁ => ?_
  · intro x y hx
    obtain ⟨hok, herror⟩ :=
      besideE_queryValue stable_holds (fun _ => id) he he' "Precedence" (by decide) x y hx
    refine ⟨fun d hrun => ?_, fun f hrun => ?_⟩
    · obtain ⟨⟨hholds, hy⟩, hd⟩ := hok d hrun
      exact ⟨⟨hholds, hd⟩, hy⟩
    · obtain ⟨⟨-, hy⟩, hf⟩ := herror f hrun
      exact ⟨hy, sameKey hsame hf (.inl rfl) (.inl rfl) lib name⟩
  rcases hprecedence : precedenceOf d₁ with ⟨precedence, malformed₁⟩
  dsimp only
  refine .bind (M := fun d x => F₂ d₁ d x ∧ Reached start after x) (fun f => hstable _) ?_
    fun d₂ => ?_
  · intro x y hx
    obtain ⟨hok, herror⟩ :=
      besideE_queryValue (hF₁ d₁) (fun _ h => h.1) he he' "Enabled" (by decide) x y hx
    refine ⟨fun d hrun => ?_, fun f hrun => ?_⟩
    · obtain ⟨⟨hfirst, hy⟩, hd⟩ := hok d hrun
      exact ⟨⟨hfirst, hd⟩, hy⟩
    · obtain ⟨⟨hfirst, hy⟩, hf⟩ := herror f hrun
      exact ⟨hy, sameKey hsame hfirst.2 hf (.inl rfl) lib name⟩
  rcases henabled : enabledOf d₂ with ⟨enabled, malformed₂⟩
  dsimp only
  refine .bind (M := fun d x => Reached start after x ∧ SawLayer (layerOf lib name e.value)
    (layerOf lib name e'.value) after (layerFrom lib name (.ok d₁) (.ok d₂) (.ok d)) x)
    (fun f => hstable _) ?_ fun d₃ => ?_
  · intro x y hx
    obtain ⟨hok, herror⟩ :=
      besideE_queryValue (hF₂ d₁ d₂) (fun _ h => h.1.1) he he' "Owner" (by decide) x y hx
    refine ⟨fun d hrun => ?_, fun f hrun => ?_⟩
    · obtain ⟨⟨hboth, hy⟩, hd⟩ := hok d hrun
      exact ⟨hy, sameKey hsame hboth.1.2 hboth.2 hd lib name⟩
    · obtain ⟨⟨hboth, hy⟩, hf⟩ := herror f hrun
      exact ⟨hy, sameKey hsame hboth.1.2 hboth.2 hf lib name⟩
  -- what they say is decided by the three values
  have hlayer : layerFrom lib name (.ok d₁) (.ok d₂) (.ok d₃)
      = (ownerOf lib d₃).map fun owner =>
          ⟨name, precedence, enabled, owner.1, malformed₁ || malformed₂ || owner.2⟩ := by
    unfold layerFrom
    simp only [ok_bind, hprecedence, henabled]
    rcases ownerOf lib d₃ with f | owner
    · rfl
    · rfl
  rw [hlayer]
  rcases ownerOf lib d₃ with f | ⟨owner, malformed₃⟩
  · exact .throw (hstable _) fun x hx => hx
  · exact .pure (hstable _) fun x hx => hx

theorem readOf_of_find? (h0 : 0 ∉ utf8 name) (he : start.find? (namedPath fold name) = some e)
    (hrefuses : e.value.refuses KeyAccess.QUERY_VALUE = none) :
    readOf lib start name = layerOf lib name e.value := by
  unfold readOf
  rw [if_neg h0, he]
  dsimp only
  rw [hrefuses]

/-- A key is opened by one call. -/
theorem open_inv {str : String} {access flags : UInt32} {r : Except Errno Key}
    (hrun : methodStep before after (.open none str access flags) x r y) :
    ∃ t t', Relation.ReflTransGen (Together.Turns before after) x t ∧
      keys (.open none str access flags) (stateOf t) = (r, stateOf t') ∧
      Relation.ReflTransGen (Together.Turns before after) t' y := by
  have hrun : Concurrent (Together.Turns before after) (answers fold).step x
      (Key.open none str access flags) r y := hrun
  show ∃ t t', _ ∧ (Key.open none str access flags).run registry (stateOf t) = _ ∧ _
  unfold Key.open at hrun ⊢
  rcases hnew : CString.new str with e | cpath
  · rw [hnew] at hrun
    obtain ⟨rfl, hxy⟩ := Concurrent.ret_inv hrun
    exact ⟨x, x, .refl, rfl, hxy⟩
  · rw [hnew] at hrun
    obtain ⟨t, r', t', hxt, hcall, hrest⟩ := Concurrent.call_inv hrun
    obtain ⟨rfl, hty⟩ := Concurrent.ret_inv hrest
    obtain ⟨hr, ht'⟩ := Prod.mk.inj hcall
    refine ⟨t, t', hxt, ?_, hty⟩
    show registry (.openKey none cpath access flags) (stateOf t) = _
    rw [← ht']
    exact Prod.ext hr rfl

/-- A layer's key was found in the store, as it was or as it is in the end. -/
def Found (start after : Store fold) (name : String) (fd : Fd) (x : Store fold × List Object) :
    Prop :=
  0 ∉ utf8 name ∧ ∃ store e, (store = start ∨ store = after) ∧ Reached store after x ∧
    store.find? (namedPath fold name) = some e ∧
    e.value.refuses KeyAccess.QUERY_VALUE = none ∧ Holds fd (namedPath fold name) x

theorem stable_found : Stable (Together.Turns before after)
    (Found start after name fd) := by
  rintro x y hxy ⟨h0, store, e, hstore, hx, he, hrefuses, hholds⟩
  exact ⟨h0, store, e, hstore, stable_reached x y hxy hx, he, hrefuses,
    stable_holds x y hxy hholds⟩

/-- What fails to open cannot be read. -/
theorem readOf_of_open_error {s s' : State fold} {errno : Errno} (lib : SidLib)
    (hopen : keys (.open none (LAYERS ++ "\\" ++ name) KeyAccess.QUERY_VALUE noFlags) s
      = (.error errno, s')) :
    readOf lib s.store name = .error (.errno errno) ∧ s' = s := by
  have herror : ∀ {e : Errno}, (Except.error e : Except Errno Key) = .error errno →
      (Except.error (.errno e) : Outcome Layer) = .error (.errno errno) := by
    rintro e ⟨⟩
    rfl
  unfold readOf
  split_ifs with h0
  · rw [keys_openLayer_nul h0] at hopen
    exact (Prod.mk.inj hopen).imp herror Eq.symm
  rw [keys_openLayer h0] at hopen
  rcases hfind : s.store.find? (namedPath fold name) with _ | e
  · rw [hfind] at hopen
    exact (Prod.mk.inj hopen).imp herror Eq.symm
  rw [hfind] at hopen
  dsimp only at hopen ⊢
  rcases hrefuses : e.value.refuses KeyAccess.QUERY_VALUE with _ | refused
  · rw [hrefuses] at hopen
    cases hopen
  · rw [hrefuses] at hopen
    exact (Prod.mk.inj hopen).imp herror Eq.symm

/-- What opens was found. -/
theorem find?_of_open {s s' : State fold}
    (hopen : keys (.open none (LAYERS ++ "\\" ++ name) KeyAccess.QUERY_VALUE noFlags) s
      = (.ok fd, s')) :
    0 ∉ utf8 name ∧ s'.store = s.store ∧ s'.path fd = some (namedPath fold name) ∧
      ∃ e, s.store.find? (namedPath fold name) = some e ∧
        e.value.refuses KeyAccess.QUERY_VALUE = none := by
  by_cases h0 : 0 ∈ utf8 name
  · rw [keys_openLayer_nul h0] at hopen
    cases hopen
  refine ⟨h0, ?_⟩
  rw [keys_openLayer h0] at hopen
  rcases hfind : s.store.find? (namedPath fold name) with _ | e
  · rw [hfind] at hopen
    cases hopen
  rw [hfind] at hopen
  dsimp only at hopen
  rcases hrefuses : e.value.refuses KeyAccess.QUERY_VALUE with _ | refused
  · rw [hrefuses] at hopen
    obtain ⟨hfd, rfl⟩ := Prod.mk.inj hopen
    obtain rfl := Except.ok.inj hfd
    exact ⟨rfl, path_push_self _ _, e, rfl, hrefuses⟩
  · rw [hrefuses] at hopen
    cases hopen

theorem besideE_openLayer (lib : SidLib) (name : String) :
    BesideE before after (Reached start after) (openLayer name KeyAccess.QUERY_VALUE)
      (Found start after name)
      fun f x => Reached start after x ∧
        SawLayer (readOf lib start name) (readOf lib after name) after (.error f) x := by
  refine .lift stable_reached (fun fd => stable_found) (fun f => stable_sawLayer _ _ _) ?_
  intro x r y hx hcall
  obtain ⟨t, t', hxt, hkeys, hty⟩ := open_inv hcall
  have ht := stable_reached.of_reflTransGen hxt hx
  rcases r with errno | fd
  · -- whichever store it was, it says so itself
    obtain ⟨hread, hsame⟩ := readOf_of_open_error lib hkeys
    obtain rfl : t' = t := congrArg (fun s : State fold => (s.store, s.objects)) hsame
    refine ⟨fun fd hfd => ?_, fun f hf => ?_⟩
    · cases hfd
    · obtain rfl := Except.error.inj hf
      refine ⟨stable_reached.of_reflTransGen hty ht, ?_⟩
      rcases ht with ht | ht
      · exact .inl (ht ▸ hread.symm)
      · exact .inr ⟨ht ▸ hread.symm, stable_after.of_reflTransGen hty ht⟩
  · obtain ⟨h0, hstore, hpath, e, he, hrefuses⟩ := find?_of_open hkeys
    have hfound : Found start after name fd t' :=
      ⟨h0, t.1, e, ht, .inl hstore, he, hrefuses, hpath⟩
    refine ⟨fun fd' hfd => ?_, fun f hf => ?_⟩
    · obtain rfl := Except.ok.inj hfd
      exact stable_found.of_reflTransGen hty hfound
    · cases hf

/-- **A read beside a program that changes a layer** returns what it would have returned before, or
what it would return in the end. -/
theorem besideE_read (before : Store fold) (hkeeps : KeepsKeys start after) (lib : SidLib)
    (name : String) :
    BesideE before after (Reached start after) (read lib name)
      (fun layer x => Reached start after x ∧
        SawLayer (readOf lib start name) (readOf lib after name) after (.ok layer) x)
      fun f x => Reached start after x ∧
        SawLayer (readOf lib start name) (readOf lib after name) after (.error f) x := by
  rw [read_eq]
  refine .bind (fun f => stable_sawLayer _ _ _) (besideE_openLayer lib name) fun fd => ?_
  rintro x y ⟨h0, store, e, rfl | rfl, hx, he, hrefuses, hholds⟩
  · -- it was opened in the store as it was, and its values may change
    obtain ⟨e', he', hrefuses', hsame⟩ := hkeeps _ e he
    have hread := besideE_readOpen before he he' hsame lib name x y ⟨hholds, hx⟩
    rw [readOf_of_find? h0 he hrefuses, readOf_of_find? h0 he' (hrefuses' ▸ hrefuses)]
    exact hread
  · obtain ⟨hok, herror⟩ := besideE_readOpen before he he ⟨[], fun _ _ => rfl⟩ lib name
      x y ⟨hholds, hx⟩
    have hsaw : ∀ o, Reached store store y ∧
        SawLayer (layerOf lib name e.value) (layerOf lib name e.value) store o y →
        Reached start store y ∧
          SawLayer (readOf lib start name) (readOf lib store name) store o y := by
      rintro o ⟨hy, ho⟩
      have hy := hy.elim id id
      rw [readOf_of_find? h0 he hrefuses]
      exact ⟨.inr hy, .inr ⟨ho.elim id And.left, hy⟩⟩
    exact ⟨fun layer hrun => hsaw _ (hok layer hrun), fun f hrun => hsaw _ (herror f hrun)⟩

end Reading

/-! ### Reading layers -/

/-- `read`, over the calls of libpeios. -/
def readProg (lib : SidLib) (name : String) : RegProg (Except Fault Layer) :=
  (read lib name).run.interp KeyCall.impl

/-- A method that reads, outside transactions. -/
def IsRead : KeyCall → Prop
  | .open .. => True
  | .queryValue _ _ txn => txn = none
  | _ => False

theorem callsOnly_queryValue (key : Key) (value : String) :
    CallsOnly IsRead (queryValue key value) := by
  have hcall : IsRead (.queryValue key (utf8 value) none) := rfl
  refine .bind (CallsOnly.lift (R := KeyReply) hcall Except.ok) fun r => ?_
  rcases r with e | v
  · dsimp only
    split_ifs
    · exact .pure _
    · exact .throw _
  · exact .pure _

theorem callsOnly_read (lib : SidLib) (name : String) : CallsOnly IsRead (read lib name) := by
  rw [read_eq]
  refine .bind (callsOnly_ask trivial) fun key => .bind (callsOnly_queryValue _ _) fun d₁ => ?_
  rcases precedenceOf d₁ with ⟨precedence, malformed₁⟩
  refine .bind (callsOnly_queryValue _ _) fun d₂ => ?_
  rcases enabledOf d₂ with ⟨enabled, malformed₂⟩
  refine .bind (callsOnly_queryValue _ _) fun d₃ => ?_
  rcases ownerOf lib d₃ with f | owner
  · exact .throw _
  · exact .pure _

theorem only_impl {c : KeyCall} (hc : IsRead c) : c.impl.Only (Keeps (answers fold)) := by
  cases c with
  | «open» parent path access flags =>
    show (Key.open parent path access flags).Only _
    unfold Key.open
    rcases CString.new path with e | cpath
    · trivial
    · exact ⟨fun w objects => openKey_store _ _ _, fun _ => trivial⟩
  | queryValue key value txn =>
    obtain rfl : txn = none := hc
    have hloop : ∀ rounds w,
        (queryLoop key (bytesU32 value) rounds w).Only (Keeps (answers fold)) := by
      intro rounds
      induction rounds with
      | zero => exact fun _ => trivial
      | succ rounds ih =>
        refine fun w => ⟨fun _ _ => rfl, fun v => ?_⟩
        show (afterQuery key (bytesU32 value) rounds v).Only _
        unfold afterQuery
        split
        · trivial
        · split_ifs
          · exact ih _
          · trivial
    exact hloop 4 _
  | _ => exact absurd hc id

/-- Reading leaves the store as it is. -/
theorem only_readProg (lib : SidLib) (name : String) :
    (readProg lib name).Only (Keeps (answers fold)) := by
  have hreply : ∀ c : KeyCall, Nonempty (KeyReply c) := fun c => ⟨.error ENOENT⟩
  exact (only_of_path fun evs r => callsOnly_read lib name evs r).interp fun c => only_impl

variable {before after start : Store fold}

theorem beside_readProg (hkeeps : KeepsKeys start after) (lib : SidLib) (name : String) :
    Beside before after (Reached start after) (readProg lib name) fun r x =>
      Reached start after x ∧
        SawLayer (readOf lib start name) (readOf lib after name) after r x := by
  intro x r y hx hrun
  obtain ⟨hok, herror⟩ := besideE_read before hkeeps lib name x y hx
  rcases r with f | layer
  · exact herror f hrun.interp_inv
  · exact hok layer hrun.interp_inv

/-- The results of reads are those of one store up to some read, and those of another from there
on. -/
def TurnsOnce (lib : SidLib) (before after : Store fold) (names : List String)
    (results : List (Outcome Layer)) : Prop :=
  ∃ old new, names = old ++ new ∧
    results = old.map (readOf lib before) ++ new.map (readOf lib after)

theorem beside_reads (hkeeps : KeepsKeys before after) (lib : SidLib) (names : List String) :
    Beside before after (fun x => x.1 = before) (names.mapM (readProg lib)) fun results _ =>
      TurnsOnce lib before after names results := by
  -- as long as no read has told of the new store, it may still be the old one
  let I (names : List String) (results : List (Outcome Layer))
      (x : Store fold × List Object) : Prop :=
    results = names.map (readOf lib before) ∧ Reached before after x ∨
      TurnsOnce lib before after names results ∧ x.1 = after
  have hI : ∀ names results, Stable (Together.Turns before after) (I names results) := by
    rintro names results x y hxy (⟨hresults, hx⟩ | ⟨hresults, hx⟩)
    · exact .inl ⟨hresults, stable_reached x y hxy hx⟩
    · exact .inr ⟨hresults, stable_after x y hxy hx⟩
  have hread : ∀ names results name,
      Beside before after (I names results) (readProg lib name) fun r =>
        I (names ++ [name]) (results ++ [r]) := by
    rintro names results name x r y (⟨rfl, hx⟩ | ⟨⟨old, new, rfl, rfl⟩, hx⟩) hrun
    · obtain ⟨hy, rfl | ⟨rfl, hafter⟩⟩ := beside_readProg hkeeps lib name x r y hx hrun
      · exact .inl ⟨by rw [List.map_append, List.map_singleton], hy⟩
      · exact .inr ⟨⟨names, [name], rfl, rfl⟩, hafter⟩
    · obtain ⟨hy, hr⟩ := beside_readProg (.refl after) lib name x r y (.inl hx) hrun
      obtain rfl : r = readOf lib after name := hr.elim id And.left
      refine .inr ⟨⟨old, new ++ [name], List.append_assoc .., ?_⟩, hy.elim id id⟩
      rw [List.map_append, List.map_singleton, List.append_assoc]
  intro x results y hx hrun
  have hreads := Ensures.mapM hI hread names x results y (.inl ⟨rfl, .inl hx⟩) hrun
  rcases hreads with ⟨rfl, -⟩ | ⟨hresults, -⟩
  · exact ⟨names, [], (List.append_nil _).symm, (List.append_nil _).symm⟩
  · exact hresults

/-- **A layer that is changed is never read half changed.**  While one process creates a layer, or
sets one of its values, and any of its calls may fail, another reads layers, with their calls in any
order: up to some read the results are those that the store as it was would have given, and from
there on those that it gives in the end. -/
theorem reads_turnOnce (lib : SidLib) (lower : String → String) (outcome : Nat → Option Errno)
    (op : LayerOp) (hop : op ≠ .delete) (name : String) (names : List String)
    {s u : Shared (Store fold) (Nat × List Object) (List Object)} {result : Except Fault Unit}
    {results : List (Outcome Layer)}
    (hrun : Together (leftStep (faultyAnswers fold outcome)) (rightStep (answers fold)) s
      (op.run lower name).run (names.mapM (readProg lib)) result results u) :
    TurnsOnce lib s.world u.world names results := by
  have hreads : (names.mapM (readProg lib)).Only (Keeps (answers fold)) :=
    .mapM (only_readProg lib) names
  -- the first process runs as it does alone
  have hkeeps : KeepsKeys s.world u.world := by
    have hstore := run_faultyAnswers outcome (op.run lower name) (s.world, s.left)
    rw [hrun.solo hreads] at hstore
    have hkeys := keepsKeys_run lower name outcome hop (faultyState (s.world, s.left))
    rwa [← hstore] at hkeys
  exact beside_reads hkeeps lib names _ results _ rfl (hrun.turns (onlyBefore_run hop) hreads)

/-- The layer of `darkState` is read, its precedence is set, and it is read again. -/
theorem reads_turnOnce_dark :
    ∃ u, TurnsOnce sidLayout darkState.store u ["Dark", "Dark"]
      [.ok (darkLayer "Dark"), .ok { darkLayer "Dark" with precedence := 5 }] := by
  let s : Shared (Store asciiFold) (Nat × List Object) (List Object) :=
    ⟨darkState.store, (0, []), []⟩
  let p : KeyProg Unit := (LayerOp.setPrecedence 5).run asciiLower "dark"
  let first := (readProg sidLayout "Dark").run (answers asciiFold) (s.world, s.right)
  let rest (r : Except Fault Layer) : RegProg (List (Except Fault Layer)) :=
    readProg sidLayout "Dark" >>= fun r' => pure [r, r']
  let t : Shared (Store asciiFold) (Nat × List Object) (List Object) :=
    ⟨first.2.1, s.left, first.2.2⟩
  have hafter : ∃ u, Together (leftStep (faultyAnswers asciiFold fun _ => none))
      (rightStep (answers asciiFold)) t p.run (rest first.1) _ _ u :=
    Together.sequential p.run (rest first.1) t
  obtain ⟨u, hu⟩ := hafter
  have hrun := Together.right_first (readProg sidLayout "Dark") s hu
  have hresults : ((rest first.1).run (answers asciiFold)
      ((p.run.run (faultyAnswers asciiFold fun _ => none) (t.world, t.left)).2.1, t.right)).1
      = [.ok (darkLayer "Dark"), .ok { darkLayer "Dark" with precedence := 5 }] := by
    decide +kernel
  rw [hresults] at hrun
  exact ⟨u.world, reads_turnOnce sidLayout asciiLower (fun _ => none) (.setPrecedence 5) nofun
    "dark" ["Dark", "Dark"] hrun⟩

end Peios.Registry.Layers
