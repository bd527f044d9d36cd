import Peios.Directory
import Peios.Registry.Hive

/-!
# A registry with values and transactions

A `Store` is the keys of a registry by path, with the values each holds in a single layer; names of
keys compare by `fold`.  `Store.registry` answers the calls of libpeios over it, and `Store.keys`
the methods of `Key`, by running them against it.

What is done in a transaction is kept beside the store, as a list of `Change`s, and made when the
transaction is committed.  Nothing else changes a store than calls that are not in a transaction.
The `keys_…` lemmas say what each method does when it succeeds.
-/

namespace Peios.Registry

open Interaction ByteString

/-! ### Keys -/

/-- What a key holds. -/
structure KeyBody where
  /-- The error with which the key's descriptor refuses to open it with some rights. -/
  refuses : UInt32 → Option Errno
  /-- A key that is there is not refused as if it were not. -/
  refuses_ne : ∀ access, refuses access ≠ some ENOENT
  /-- What a query of each value gives: `ENOENT` if there is none of that name. -/
  values : Bytes → Except Errno (Item 2 ValueFields)
  /-- What enumeration says of the key besides its name. -/
  metadata : SubkeyFields

/-- The data of a value, in the base layer. -/
def Item.ofData (sequence : UInt64) (ty : ValueType) (data : Bytes) : Item 2 ValueFields where
  fields := { sequence, ty }
  bytes := fun i => if i.val = 0 then bytesU32 data else utf8 "base"
  length_lt := by
    intro i
    split_ifs
    · unfold bytesU32
      rw [List.length_take]
      exact lt_of_le_of_lt (min_le_left _ _) (Nat.mod_lt _ (by decide))
    · decide

namespace KeyBody

/-- A key that has just been made: nobody is refused, and there are no values. -/
def new : KeyBody :=
  { refuses := fun _ => none, refuses_ne := nofun, values := fun _ => .error ENOENT,
    metadata := { lastWriteTime := 0, subkeyCount := 0, valueCount := 0 } }

/-- A value written to the key. -/
def write (name : Bytes) (ty : ValueType) (data : Bytes) (key : KeyBody) : KeyBody :=
  let sequence := match key.values name with
    | .ok item => item.fields.sequence + 1
    | .error _ => 1
  { key with values := Function.update key.values name (.ok (.ofData sequence ty data)) }

end KeyBody

/-- The bytes can be a key's name. -/
def IsKeyName (b : Bytes) : Prop := b.all (fun x => !isSeparator x) = true ∧ b.length < 2 ^ 32

instance (b : Bytes) : Decidable (IsKeyName b) := inferInstanceAs (Decidable (_ ∧ _))

/-- Such bytes, as a key's name. -/
def IsKeyName.keyName {b : Bytes} (h : IsKeyName b) : KeyName where
  bytes := b
  no_separator := by
    intro x hx
    have hall := List.all_eq_true.mp h.1 x hx
    exact (Bool.not_eq_true' _).mp hall
  length_lt := h.2

/-- A key's name, if the bytes can be one. -/
def KeyName.ofBytes (b : Bytes) : Option KeyName :=
  if h : IsKeyName b then some h.keyName else none

/-- What a key of a `Store` is called: the folded name. -/
abbrev KeyName.folded (fold : Bytes → Bytes) (name : KeyName) : Bytes := fold name.bytes

/-- The keys of a registry. -/
abbrev Store (fold : Bytes → Bytes) := Directory (KeyName.folded fold) KeyBody

namespace Store

variable {fold : Bytes → Bytes}

/-! ### Changes -/

/-- A change to the keys of a registry. -/
inductive Change where
  | create (parent : List Bytes) (name : KeyName)
  | set (key : List Bytes) (name : Bytes) (ty : ValueType) (data : Bytes)
  | delete (key : List Bytes)

/-- Make a change. -/
def apply (store : Store fold) : Change → Store fold
  | .create parent name => store.insert parent name .new
  | .set key name ty data => store.modify key (.write name ty data)
  | .delete key => store.erase key

/-- Make changes, one after another. -/
def applyAll (store : Store fold) (changes : List Change) : Store fold := changes.foldl apply store

/-! ### The state of a registry -/

/-- What is behind a handle. -/
inductive Object where
  | key (path : List Bytes)
  | txn (changes : List Change)
  | closed

/-- A registry, with the handles given out so far. -/
structure State (fold : Bytes → Bytes) where
  store : Store fold
  objects : List Object

namespace State

variable (s : State fold)

/-- The key behind a handle. -/
def path (fd : Fd) : Option (List Bytes) :=
  match s.objects[fd]? with
  | some (.key p) => some p
  | _ => none

/-- The key behind a parent's handle; no parent is the root. -/
def base : Option Fd → Option (List Bytes)
  | none => some []
  | some fd => s.path fd

/-- The store as a call sees it, which in a transaction has the transaction's changes. -/
def view : Option Fd → Option (Store fold)
  | none => some s.store
  | some t =>
    match s.objects[t]? with
    | some (.txn changes) => some (applyAll s.store changes)
    | _ => none

/-- Make a change, or keep it for the transaction's commit. -/
def mutate (c : Change) : Option Fd → State fold
  | none => { s with store := apply s.store c }
  | some t =>
    match s.objects[t]? with
    | some (.txn changes) => { s with objects := s.objects.set t (.txn (changes ++ [c])) }
    | _ => s

/-- Give out a handle. -/
def push (o : Object) : State fold := { s with objects := s.objects ++ [o] }

/-- The key that a path leads to from a parent. -/
def resolve (parent : Option Fd) (path : Bytes) : Except Errno (List Bytes) :=
  match s.base parent with
  | none => .error EBADF
  | some base => .ok (base ++ (Hive.components path).map fold)

/-- The change that makes the last key of a path. -/
def creation (view : Store fold) (parent : Option Fd) (path : Bytes) : Except Errno Change :=
  match s.base parent, KeyName.ofBytes ((Hive.components path).getLast?.getD []) with
  | some base, some name =>
    let above := base ++ (Hive.components path).dropLast.map fold
    if view.Has above then .ok (.create above name) else .error ENOENT
  | none, _ => .error EBADF
  | _, none => .error EINVAL

end State

section

variable {s : State fold} {fd : Fd} {key : List Bytes}

/-- What is behind a handle stays there whatever is opened later. -/
theorem getElem?_push {i : Nat} {o : Object} (ho : s.objects[i]? = some o) (o' : Object) :
    (s.push o').objects[i]? = some o := by
  obtain ⟨hi, -⟩ := List.getElem?_eq_some_iff.mp ho
  show (s.objects ++ [o'])[i]? = some o
  rw [List.getElem?_append_left hi, ho]

theorem getElem?_push_self (o : Object) : (s.push o).objects[s.objects.length]? = some o := by
  show (s.objects ++ [o])[s.objects.length]? = some o
  exact List.getElem?_concat_length

theorem path_eq_some : s.path fd = some key ↔ s.objects[fd]? = some (.key key) := by
  unfold State.path
  constructor
  · intro h
    split at h
    · rename_i hp
      rw [hp, Option.some.inj h]
    · cases h
  · intro h
    rw [h]

/-- A handle that is given out stands for its key. -/
theorem path_push_self (s : State fold) (key : List Bytes) :
    (s.push (.key key)).path s.objects.length = some key :=
  path_eq_some.mpr (getElem?_push_self _)

end

/-- `REG_CREATED_NEW`. -/
def REG_CREATED_NEW : UInt32 := 1

/-! ### Answers -/

/-- A call on an open key, in the store that it sees. -/
def onKey {α : Type} (s : State fold) (key : Fd) (txn : Option Fd) (failed : Errno → α)
    (act : List Bytes → Directory.Entry KeyName Bytes KeyBody → Store fold → α) : α :=
  match s.path key, s.view txn with
  | some path, some view =>
    match view.find? path with
    | none => failed ENOENT
    | some e => act path e view
  | _, _ => failed EBADF

/-- What enumeration says of a key. -/
def item (e : Directory.Entry KeyName Bytes KeyBody) : Item 1 SubkeyFields :=
  { fields := e.value.metadata, bytes := fun _ => e.name.bytes,
    length_lt := fun _ => e.name.length_lt }

/-- What a query of a value is answered. -/
def valueAnswer (value : Except Errno (Item 2 ValueFields)) (w : Fin 2 → Bytes)
    (rest : WindowReply 2 ValueFields) : WindowReply 2 ValueFields :=
  match value with
  | .ok item => Item.answer (some item) w rest
  | .error e => { rest with errno := some e }

/-- Commit a transaction. -/
def State.commit (s : State fold) (t : Fd) : Except Errno Unit × State fold :=
  match s.objects[t]? with
  | some (.txn changes) =>
    (.ok (), { store := applyAll s.store changes, objects := s.objects.set t .closed })
  | _ => (.error EBADF, s)

/-- Open a key. -/
def State.openKey (s : State fold) (parent : Option Fd) (path : Bytes) (access : UInt32) :
    Except Errno Fd × State fold :=
  match s.resolve parent path with
  | .error e => (.error e, s)
  | .ok key =>
    match s.store.find? key with
    | none => (.error ENOENT, s)
    | some e =>
      match e.value.refuses access with
      | some errno => (.error errno, s)
      | none => (.ok s.objects.length, s.push (.key key))

/-- Open a key, or make it if it is not there.  There is one layer, so naming one is refused. -/
def State.createKey (s : State fold) (parent : Option Fd) (path : Bytes) (access : UInt32)
    (layer : Option CString) (txn : Option Fd) : Except Errno (Fd × UInt32) × State fold :=
  match layer, s.view txn, s.resolve parent path with
  | none, some view, .ok key =>
    match view.find? key with
    | some e =>
      match e.value.refuses access with
      | some errno => (.error errno, s)
      | none => (.ok (s.objects.length, REG_OPENED_EXISTING), s.push (.key key))
    | none =>
      match s.creation view parent path with
      | .error e => (.error e, s)
      | .ok c => (.ok (s.objects.length, REG_CREATED_NEW), (s.mutate c txn).push (.key key))
  | _, _, _ => (.error EBADF, s)

/-- Write a value, whatever is there: writing it only if its sequence number is as expected is
refused. -/
def State.setValue (s : State fold) (key : Fd) (name : Bytes) (ty : ValueType) (data : Bytes)
    (layer : Option Bytes) (txn : Option Fd) (expectedSeq : UInt64) :
    Except Errno Unit × State fold :=
  if layer ≠ none ∨ expectedSeq ≠ 0 then (.error EINVAL, s)
  else
    onKey s key txn (fun e => (.error e, s)) fun path _ _ =>
      (.ok (), s.mutate (.set path name ty data) txn)

/-- Delete a key that has no keys under it. -/
def State.deleteKey (s : State fold) (key : Fd) (layer : Option Bytes) (txn : Option Fd) :
    Except Errno Unit × State fold :=
  if layer ≠ none then (.error EINVAL, s)
  else
    onKey s key txn (fun e => (.error e, s)) fun path _ view =>
      if view.children path ≠ [] then (.error ENOTEMPTY, s)
      else (.ok (), s.mutate (.delete path) txn)

/-- The registry's answers to the calls of libpeios.  Those that no function on layers makes
fail. -/
def registry : Handler RegCall RegReply (State fold)
  -- handles and transactions
  | .beginTransaction, s => (.ok s.objects.length, s.push (.txn []))
  | .commit t, s => s.commit t
  | .openKey parent path access _, s => s.openKey parent path.bytes access
  | .createKey parent path access _ layer txn, s => s.createKey parent path.bytes access layer txn
  -- reads
  | .queryValue key name txn w, s =>
    (onKey s key txn (fun e => RegReply.failed e (.queryValue key name txn w)) fun _ e _ =>
      valueAnswer (e.value.values name) w (RegReply.failed ENOENT (.queryValue key name txn w)), s)
  | .enumSubkey key index txn w, s =>
    (onKey s key txn (fun e => RegReply.failed e (.enumSubkey key index txn w)) fun path _ view =>
      Item.answer ((view.children path)[index.toNat]?.map item) w
        (RegReply.failed ENOENT (.enumSubkey key index txn w)), s)
  -- changes
  | .setValue key name ty data layer txn expectedSeq, s =>
    s.setValue key name ty data layer txn expectedSeq
  | .deleteKey key layer txn, s => s.deleteKey key layer txn
  | c, s => (RegReply.failed EINVAL c, s)

/-- The registry's answers to the methods of `Key`. -/
def keys : Handler KeyCall KeyReply (State fold) := fun c s => c.impl.run registry s

/-! ### What the methods do -/

variable {s : State fold} {fd t : Fd} {key : List Bytes} {name : String} {access flags : UInt32}
  {changes : List Change} {e : Directory.Entry KeyName Bytes KeyBody}

/-- A name with a NUL is refused before any call. -/
theorem keys_open_nul (h0 : 0 ∈ utf8 name) (parent : Option Key) :
    keys (.open parent name access flags) s = (.error EINVAL, s) := by
  have hnew : CString.new name = .error EINVAL := dif_pos h0
  show (Key.open parent name access flags).run registry s = _
  unfold Key.open
  rw [hnew]
  rfl

/-- Opening a path from the root. -/
theorem keys_open (h0 : 0 ∉ utf8 name) :
    keys (.open none name access flags) s =
      match s.store.find? ((Hive.components (utf8 name)).map fold) with
      | none => (.error ENOENT, s)
      | some e =>
        match e.value.refuses access with
        | some errno => (.error errno, s)
        | none =>
          (.ok s.objects.length, s.push (.key ((Hive.components (utf8 name)).map fold))) := by
  have hnew : CString.new name = .ok ⟨utf8 name, h0⟩ := dif_neg h0
  show (Key.open none name access flags).run registry s = _
  unfold Key.open
  rw [hnew]
  rfl

theorem keys_create_nul (h0 : 0 ∈ utf8 name) (parent : Option Key) (layer : Option String)
    (txn : Option Transaction) :
    keys (.create parent name access flags layer txn) s = (.error EINVAL, s) := by
  have hnew : CString.new name = .error EINVAL := dif_pos h0
  show (Key.create parent name access flags layer txn).run registry s = _
  unfold Key.create
  rw [hnew]
  rfl

/-- A name in a key that is open is the key's path and one more part. -/
theorem resolve_single (hname : Hive.components (utf8 name) = [utf8 name])
    (hkey : s.path fd = some key) :
    s.resolve (some fd) (utf8 name) = .ok (key ++ [fold (utf8 name)]) := by
  simp only [State.resolve, State.base, hkey, hname, List.map_singleton]

/-- The change that makes it. -/
theorem creation_single (hname : Hive.components (utf8 name) = [utf8 name])
    (hkey : s.path fd = some key) (view : Store fold) :
    s.creation view (some fd) (utf8 name) =
      match KeyName.ofBytes (utf8 name) with
      | none => .error EINVAL
      | some made => if view.Has key then .ok (.create key made) else .error ENOENT := by
  unfold State.creation
  simp only [State.base, hkey, hname, List.getLast?_singleton, Option.getD_some,
    List.dropLast_singleton, List.map_nil, List.append_nil]
  rcases KeyName.ofBytes (utf8 name) with _ | made
  · rfl
  · rfl

/-- The method is one call, whose answer it turns into a disposition. -/
theorem run_create (h0 : 0 ∉ utf8 name) (parent txn : Option Fd) :
    (Key.create parent name access flags none txn).run registry s
      = ((s.createKey parent (utf8 name) access none txn).1.map
          fun made => (made.1, Disposition.fromRaw made.2),
        (s.createKey parent (utf8 name) access none txn).2) := by
  have hnew : CString.new name = .ok ⟨utf8 name, h0⟩ := dif_neg h0
  unfold Key.create
  rw [hnew]
  rfl

/-- Making a key in one that is open, in a transaction. -/
theorem keys_create (h0 : 0 ∉ utf8 name) (hname : Hive.components (utf8 name) = [utf8 name])
    (hkey : s.path fd = some key) (ht : s.objects[t]? = some (.txn changes)) :
    keys (.create (some fd) name access flags none (some t)) s =
      match (applyAll s.store changes).find? (key ++ [fold (utf8 name)]) with
      | some e =>
        match e.value.refuses access with
        | some errno => (.error errno, s)
        | none => (.ok (s.objects.length, .openedExisting),
            s.push (.key (key ++ [fold (utf8 name)])))
      | none =>
        match KeyName.ofBytes (utf8 name) with
        | none => (.error EINVAL, s)
        | some made =>
          if (applyAll s.store changes).Has key then
            (.ok (s.objects.length, .createdNew),
              (s.mutate (.create key made) (some t)).push (.key (key ++ [fold (utf8 name)])))
          else (.error ENOENT, s) := by
  have hview : s.view (some t) = some (applyAll s.store changes) := by
    simp only [State.view, ht]
  show (Key.create (some fd) name access flags none (some t)).run registry s = _
  rw [run_create h0]
  unfold State.createKey
  rw [hview, resolve_single hname hkey]
  dsimp only
  rcases (applyAll s.store changes).find? (key ++ [fold (utf8 name)]) with _ | e
  · dsimp only
    rw [creation_single hname hkey]
    rcases KeyName.ofBytes (utf8 name) with _ | made
    · rfl
    · dsimp only
      split_ifs <;> rfl
  · dsimp only
    rcases e.value.refuses access with _ | errno <;> rfl

theorem keys_begin : keys .begin s = (.ok s.objects.length, s.push (.txn [])) := rfl

/-- Committing makes the changes of the transaction. -/
theorem keys_commit (ht : s.objects[t]? = some (.txn changes)) :
    keys (.commit t) s
      = (.ok (), { store := applyAll s.store changes, objects := s.objects.set t .closed }) := by
  show s.commit t = _
  unfold State.commit
  rw [ht]

/-- A value that is written is a change to the key. -/
theorem keys_setValue_ok (hkey : s.path fd = some key) {name : Bytes} {ty : ValueType}
    {data : Bytes} {txn : Option Transaction} {s' : State fold}
    (hcall : keys (.setValue { key := fd, name, ty, data, layer := none, expectedSeq := 0, txn }) s
      = (.ok (), s')) :
    s' = s.mutate (.set key (bytesU32 name) ty (bytesU32 data)) txn := by
  have hcall : onKey s fd txn (fun e => (Except.error e, s)) (fun path _ _ =>
      (.ok (), s.mutate (.set path (bytesU32 name) ty (bytesU32 data)) txn)) = (.ok (), s') := hcall
  unfold onKey at hcall
  rw [hkey] at hcall
  split at hcall
  · rename_i path view hpath _
    obtain rfl := Option.some.inj hpath
    split at hcall
    · cases hcall
    · exact (Prod.mk.inj hcall).2.symm
  · cases hcall

/-- A key that is deleted has no keys under it, and is gone. -/
theorem keys_deleteKey_ok (hkey : s.path fd = some key) {s' : State fold}
    (hcall : keys (.deleteKey fd none none) s = (.ok (), s')) :
    s.store.children key = [] ∧ s' = s.mutate (.delete key) none := by
  have hcall : onKey s fd none (fun e => (Except.error e, s)) (fun path _ view =>
      if view.children path ≠ [] then (.error ENOTEMPTY, s)
      else (.ok (), s.mutate (.delete path) none)) = (.ok (), s') := hcall
  unfold onKey at hcall
  rw [hkey] at hcall
  dsimp only [State.view] at hcall
  split at hcall
  · cases hcall
  · split_ifs at hcall with hchildren
    · cases hcall
    · exact ⟨not_not.mp hchildren, (Prod.mk.inj hcall).2.symm⟩

/-- What `Key::query_value` returns of a value. -/
def regValue (item : Item 2 ValueFields) : RegValue := .ofWindows item.fields item.bytes

/-- Reading a value. -/
theorem keys_queryValue (hkey : s.path fd = some key) (he : s.store.find? key = some e)
    (name : Bytes) :
    keys (.queryValue fd name none) s
      = ((e.value.values (bytesU32 name)).map regValue, s) := by
  have hcall : ∀ w, (sys (.queryValue fd (bytesU32 name) none w)).run registry s
      = (valueAnswer (e.value.values (bytesU32 name)) w
        (RegReply.failed ENOENT (.queryValue fd (bytesU32 name) none w)), s) := by
    intro w
    show registry (.queryValue fd (bytesU32 name) none w) s = _
    simp only [registry, onKey, hkey, State.view, he]
  show (Key.queryValue fd name none).run registry s = _
  unfold Key.queryValue
  rcases hvalue : e.value.values (bytesU32 name) with errno | item
  · apply sizedRead_run_error
    intro w
    refine ⟨_, hcall w, ?_⟩
    rw [hvalue]
    rfl
  · have hrun : ∀ w, ∃ rest, (sys (.queryValue fd (bytesU32 name) none w)).run registry s
        = (Item.answer (some item) w rest, s) := by
      intro w
      refine ⟨RegReply.failed ENOENT (.queryValue fd (bytesU32 name) none w), ?_⟩
      rw [hcall w, hvalue]
      rfl
    rw [sizedRead_run _ _ hrun]
    rfl

/-- What `Key::enum_subkey` returns of a key. -/
def subkey (e : Directory.Entry KeyName Bytes KeyBody) : Subkey :=
  .ofWindows e.value.metadata fun _ => e.name.bytes

/-- Enumerating subkeys. -/
theorem keys_enumSubkey (hkey : s.path fd = some key) (he : s.store.find? key = some e)
    (index : UInt32) :
    keys (.enumSubkey fd index none) s
      = (.ok ((s.store.children key)[index.toNat]?.map subkey), s) := by
  have hrun : ∀ w, ∃ rest, (sys (.enumSubkey fd index none w)).run registry s
      = (Item.answer ((s.store.children key)[index.toNat]?.map item) w rest, s) := by
    intro w
    refine ⟨RegReply.failed ENOENT (.enumSubkey fd index none w), ?_⟩
    show registry (.enumSubkey fd index none w) s = _
    simp only [registry, onKey, hkey, State.view, he]
  show (Key.enumSubkey fd index none).run registry s = _
  unfold Key.enumSubkey
  rw [sizedRead_run _ _ hrun]
  rcases (s.store.children key)[index.toNat]? with _ | e
  · rfl
  · rfl

end Store

end Peios.Registry
