import Peios.Forest
import Peios.Registry.Equiv.SizedRead

/-!
# A registry that nobody else changes

`Hive` is a registry as the functions on keys see it: the subkeys of each key, where each link
points, and the layer whose entries make the keys visible.  `Hive.registry` answers the calls of
libpeios over it, and `Hive.keys` the methods of `Key`, by running them against it; the
`keys_…` lemmas say what each method then does.

`Hive.Subtree` is the part of a hive under one key, when that is a finite tree.  Other keys may be
there as well, and links of the tree may point at them or back into the tree.
-/

namespace Peios.Registry

open Interaction ByteString

/-! ### Hives -/

/-- What identifies a key. -/
abbrev KeyId := Nat

/-- A path separator. -/
def isSeparator (b : UInt8) : Bool := b = 0x5c ∨ b = 0x2f

theorem isSeparator_a : isSeparator 97 = false := rfl

theorem isSeparator_b : isSeparator 98 = false := rfl

/-- A key's name: one component of a path, whose length fits the `u32` it is reported in. -/
structure KeyName where
  bytes : Bytes
  no_separator : ∀ b ∈ bytes, isSeparator b = false
  length_lt : bytes.length < 2 ^ 32

/-- The name is one component of a path. -/
def IsSingle (name : Bytes) : Prop := ∀ b ∈ name, isSeparator b = false

/-- A registry. -/
structure Hive where
  /-- The subkeys of a key, in the order enumeration gives them. -/
  subkeys : KeyId → List (KeyName × KeyId)
  /-- Where a link points. -/
  target : KeyId → Option KeyId
  /-- What enumeration says of a key besides its name. -/
  metadata : KeyId → SubkeyFields
  /-- The layer whose entries make the keys visible. -/
  layer : Option Bytes
  /-- The answers to all other calls, and what failed ones leave behind. -/
  other : (c : RegCall) → RegReply c

/-- A key opened or deleted. -/
inductive Touch where
  | opened (key : KeyId)
  | deleted (key : KeyId)
  deriving DecidableEq

namespace Touch

/-- The key, if it was deleted. -/
def deleted? : Touch → Option KeyId
  | opened _ => none
  | deleted k => some k

end Touch

namespace Hive

/-- What the calls change: the keys behind the handles given out, and what was done to keys. -/
structure State where
  handles : List KeyId
  log : List Touch
  deriving DecidableEq

/-- The keys that have been deleted. -/
def State.deleted (s : State) : List KeyId := s.log.filterMap Touch.deleted?

variable (hive : Hive)

/-- The subkeys of a key that have not been deleted. -/
def visible (s : State) (k : KeyId) : List (KeyName × KeyId) :=
  (hive.subkeys k).filter fun e => e.2 ∉ s.deleted

/-- The components of a path. -/
def components (path : Bytes) : List Bytes := path.splitOnP isSeparator

/-- Follow a path from a key.  A link on the way is followed, and so is one at the end unless the
flags say to open the link itself. -/
def walk (s : State) (flags : UInt32) : KeyId → List Bytes → Option KeyId
  | k, [] => some k
  | k, name :: rest => do
    let (_, child) ← (hive.visible s k).find? (·.1.bytes = name)
    if rest.isEmpty ∧ flags &&& OpenFlags.OPEN_LINK ≠ 0 then return child
    walk s flags ((hive.target child).getD child) rest

/-- What enumerating a subkey is about. -/
def item (e : KeyName × KeyId) : Item 1 SubkeyFields :=
  { fields := hive.metadata e.2, bytes := fun _ => e.1.bytes, length_lt := fun _ => e.1.length_lt }

/-- The registry's answers to the calls of libpeios. -/
def registry : Handler RegCall RegReply State
  | .openKey parent path access flags, s =>
    match parent.bind (s.handles[·]?) with
    | none => (hive.other (.openKey parent path access flags), s)
    | some k =>
      match hive.walk s flags k (components path.bytes) with
      | none => (.error ENOENT, s)
      | some child =>
        (.ok s.handles.length,
          { handles := s.handles ++ [child], log := s.log ++ [.opened child] })
  | .enumSubkey key index txn w, s =>
    match s.handles[key]? with
    | none => (hive.other (.enumSubkey key index txn w), s)
    | some k =>
      (Item.answer ((hive.visible s k)[index.toNat]?.map hive.item) w
        (hive.other (.enumSubkey key index txn w)), s)
  | .deleteKey key layer txn, s =>
    match s.handles[key]? with
    | none => (hive.other (.deleteKey key layer txn), s)
    | some k =>
      if layer ≠ hive.layer ∨ k ∈ s.deleted then (.error ENOENT, s)
      else if hive.visible s k ≠ [] then (.error ENOTEMPTY, s)
      else (.ok (), { s with log := s.log ++ [.deleted k] })
  | c, s => (hive.other c, s)

/-- The registry's answers to the methods of `Key`. -/
def keys : Handler KeyCall KeyReply State := fun c s => c.impl.run hive.registry s

/-! ### What the methods do -/

variable {hive} {s : State} {fd : Fd} {k : KeyId}

/-- What `Key::enum_subkey` returns of an entry. -/
def subkey (hive : Hive) (e : KeyName × KeyId) : Subkey :=
  .ofWindows (hive.metadata e.2) fun _ => e.1.bytes

theorem keys_enumSubkey (hk : s.handles[fd]? = some k) (index : UInt32)
    (txn : Option Transaction) :
    hive.keys (.enumSubkey fd index txn) s
      = (.ok ((hive.visible s k)[index.toNat]?.map hive.subkey), s) := by
  have hrun : ∀ w, ∃ rest, (sys (.enumSubkey fd index txn w)).run hive.registry s
      = (Item.answer ((hive.visible s k)[index.toNat]?.map hive.item) w rest, s) := by
    intro w
    refine ⟨hive.other (.enumSubkey fd index txn w), ?_⟩
    show hive.registry (.enumSubkey fd index txn w) s = _
    simp only [registry, hk]
  show (Key.enumSubkey fd index txn).run hive.registry s = _
  rw [Key.enumSubkey, sizedRead_run _ _ hrun]
  cases (hive.visible s k)[index.toNat]? <;> rfl

/-- A name is one component of a path. -/
theorem components_name (name : KeyName) : components name.bytes = [name.bytes] :=
  List.splitOnP_eq_singleton name.no_separator

/-- Opening a subkey by name, with `OPEN_LINK`, opens that subkey. -/
theorem keys_open (hk : s.handles[fd]? = some k) {e : KeyName × KeyId}
    (hfind : (hive.visible s k).find? (·.1.bytes = e.1.bytes) = some e) {name : String}
    (hname : utf8 name = e.1.bytes) (h0 : 0 ∉ e.1.bytes) (access : UInt32) :
    hive.keys (.open (some fd) name access OpenFlags.OPEN_LINK) s
      = (.ok s.handles.length,
          { handles := s.handles ++ [e.2], log := s.log ++ [.opened e.2] }) := by
  have hwalk : hive.walk s OpenFlags.OPEN_LINK k (components e.1.bytes) = some e.2 := by
    rw [components_name, walk, hfind]
    rfl
  have hnew : CString.new name = .ok ⟨e.1.bytes, h0⟩ := by
    simp only [CString.new, hname]
    exact dif_neg h0
  show (Key.open (some fd) name access OpenFlags.OPEN_LINK).run hive.registry s = _
  simp only [Key.open, hnew]
  show hive.registry (.openKey (some fd) ⟨e.1.bytes, h0⟩ access OpenFlags.OPEN_LINK) s = _
  simp only [registry, Option.bind_some, hk, hwalk]

/-- A name with a NUL is refused before any call. -/
theorem keys_open_nul {name : String} (h0 : 0 ∈ utf8 name) (parent : Option Key)
    (access flags : UInt32) :
    hive.keys (.open parent name access flags) s = (.error EINVAL, s) := by
  have hnew : CString.new name = .error EINVAL := dif_pos h0
  show (Key.open parent name access flags).run hive.registry s = _
  simp only [Key.open, hnew]
  rfl

theorem keys_deleteKey (hk : s.handles[fd]? = some k) (layer : Option String)
    (txn : Option Transaction) :
    hive.keys (.deleteKey fd layer txn) s =
      if optLayer layer ≠ hive.layer ∨ k ∈ s.deleted then (.error ENOENT, s)
      else if hive.visible s k ≠ [] then (.error ENOTEMPTY, s)
      else (.ok (), { s with log := s.log ++ [.deleted k] }) := by
  show hive.registry (.deleteKey fd (optLayer layer) txn) s = _
  simp only [registry, hk]

/-! ### Trees -/

/-- The forest says what lies under each of its keys. -/
def Describes (hive : Hive) : Forest KeyName KeyId → Prop
  | .nil => True
  | .cons _ key under rest =>
    hive.subkeys key = under.entries ∧ hive.Describes under ∧ hive.Describes rest

/-- The part of a hive under one key, when it is a finite tree: no key occurs in it twice, and the
subkeys of a key have different names. -/
structure Subtree (hive : Hive) (root : KeyId) where
  forest : Forest KeyName KeyId
  subkeys_root : hive.subkeys root = forest.entries
  describes : hive.Describes forest
  nodup : (root :: forest.keys).Nodup
  names_nodup : ∀ k ∈ root :: forest.keys, ((hive.subkeys k).map (·.1.bytes)).Nodup

/-- The forest of a key alone, with what lies under it.  The key's own name plays no part. -/
def Subtree.tree {root : KeyId} (t : hive.Subtree root) : Forest KeyName KeyId :=
  .cons ⟨[], by simp, by simp⟩ root t.forest .nil

theorem Subtree.keys_tree {root : KeyId} (t : hive.Subtree root) :
    t.tree.keys = root :: t.forest.keys := by
  rw [tree, Forest.keys, Forest.keys, List.append_nil]

theorem Subtree.postorder_tree {root : KeyId} (t : hive.Subtree root) :
    t.tree.postorder = t.forest.postorder ++ [root] := rfl

theorem Subtree.nodup_tree {root : KeyId} (t : hive.Subtree root) : t.tree.keys.Nodup :=
  t.keys_tree ▸ t.nodup

/-- The subkeys of a key of the forest lie under it. -/
theorem below_of_subkey {F : Forest KeyName KeyId} (hF : hive.Describes F) {k : KeyId}
    (hk : k ∈ F.keys) {e : KeyName × KeyId} (he : e ∈ hive.subkeys k) : F.Below k e.2 := by
  induction F with
  | nil => simp [Forest.keys] at hk
  | cons name key under rest ihu ihr =>
    obtain ⟨hkey, hu, hr⟩ := hF
    rw [Forest.keys, List.mem_cons, List.mem_append] at hk
    rcases hk with rfl | hk | hk
    · exact .inl ⟨rfl, Forest.key_mem_of_entry (hkey ▸ he)⟩
    · exact .inr (.inl (ihu hu hk))
    · exact .inr (.inr (ihr hr hk))

theorem Subtree.describes_tree {root : KeyId} (t : hive.Subtree root) :
    hive.Describes t.tree := ⟨t.subkeys_root, t.describes, trivial⟩

end Hive

end Peios.Registry
