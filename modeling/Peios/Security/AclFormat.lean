import Peios.Bytes.LittleEndian
import Peios.Security.Acl

/-!
# The bytes of an ACL

The kernel's `pkm/sd.h` and `pkm/sid.h` describe the bytes of an ACL, of the ACEs in it and of a
SID.  `aclBytes` writes descriptions of ACEs that way, and `parseAcl` makes a view of such bytes.
Each part of an ACE is read back from the start of whatever follows it (`readAce_aceBytes`), so
`reads_of_parseAcl` reads back the descriptions of a whole ACL, in order.
-/

namespace Peios.Security

open ByteString

/-! ### What a view reads back -/

/-- The view of an ACE reads back its description.  No application data and empty application data
are the same bytes. -/
structure AceView.Reads (a : AceView) (s : AceSpec) : Prop where
  type : a.rawType = s.type
  flags : a.rawFlags = s.flags
  mask : a.rawMask = s.mask
  sid : a.rawSid = some s.sid
  objectType : a.rawObjectType = s.objectType
  inheritedObjectType : a.rawInheritedObjectType = s.inheritedObjectType
  appData : a.rawAppData.getD [] = s.appData.getD []

/-- The view of an ACL reads back the descriptions of its entries, in order. -/
def AclView.Reads (v : AclView) (specs : List AceSpec) : Prop :=
  v.len = specs.length ∧
    ∀ (i : Nat) (s : AceSpec), specs[i]? = some s → ∃ a, v.ace i = some a ∧ a.Reads s

/-- The view of an ACL with these entries. -/
def AclView.ofAces (aces : List AceView) : AclView :=
  { count := .ofNat aces.length, rawAce := fun i => aces[i.toNat]? }

/-! ### Cutting bytes off -/

/-- The first `n` bytes and the rest, if there are so many. -/
def cut (n : Nat) (b : Bytes) : Option (Bytes × Bytes) :=
  if n ≤ b.length then some (b.take n, b.drop n) else none

theorem cut_append {n : Nat} {a : Bytes} (ha : a.length = n) (b : Bytes) :
    cut n (a ++ b) = some (a, b) := by
  unfold cut
  rw [if_pos (by rw [List.length_append]; omega), List.take_left' ha, List.drop_left' ha]

/-- The most sub-authorities a SID has. -/
def KACS_SID_MAX_SUB_AUTHORITIES : UInt8 := 15

/-- A SID and the rest.  Its second byte is the number of its sub-authorities. -/
def cutSid : Bytes → Option (Bytes × Bytes)
  | revision :: count :: b =>
    if revision = 1 ∧ count ≤ KACS_SID_MAX_SUB_AUTHORITIES then
      cut (8 + 4 * count.toNat) (revision :: count :: b)
    else none
  | _ => none

/-- The bytes are a SID, and nothing else. -/
def IsSid (b : Bytes) : Prop := cutSid b = some (b, [])

instance (b : Bytes) : Decidable (IsSid b) := inferInstanceAs (Decidable (_ = _))

theorem cutSid_append {sid : Bytes} (hsid : IsSid sid) (b : Bytes) :
    cutSid (sid ++ b) = some (sid, b) := by
  unfold IsSid at hsid
  match sid with
  | revision :: count :: rest =>
    simp only [cutSid, List.cons_append] at hsid ⊢
    split_ifs at hsid ⊢ with hvalid
    have hlen : (revision :: count :: rest).length = 8 + 4 * count.toNat := by
      unfold cut at hsid
      split_ifs at hsid with hle
      have hdrop := (Prod.mk.inj (Option.some.inj hsid)).2
      have := List.drop_eq_nil_iff.mp hdrop
      omega
    exact cut_append hlen b

/-! ### GUIDs -/

/-- The bytes of a GUID, if there is one. -/
def guidBytes (g : Option Guid) : Bytes := g.elim [] (·.toList)

/-- A GUID, if there is to be one, and the rest. -/
def cutGuid (present : Bool) (b : Bytes) : Option (Option Guid × Bytes) :=
  if present then
    if h : 16 ≤ b.length then some (some ⟨(b.take 16).toArray, by simpa using h⟩, b.drop 16)
    else none
  else some (none, b)

theorem cutGuid_append (g : Option Guid) (b : Bytes) :
    cutGuid g.isSome (guidBytes g ++ b) = some (g, b) := by
  rcases g with _ | g
  · rfl
  have hlen : g.toList.length = 16 := g.length_toList
  have hle : 16 ≤ (guidBytes (some g) ++ b).length := by
    rw [List.length_append]
    exact hlen ▸ Nat.le_add_right _ _
  have hguid : (⟨((guidBytes (some g) ++ b).take 16).toArray, by simpa using hle⟩ : Guid) = g := by
    apply Vector.toList_inj.mp
    exact List.take_left' hlen
  unfold cutGuid
  rw [Option.isSome_some, if_pos rfl, dif_pos hle, hguid]
  congr 2
  exact List.drop_left' hlen

/-! ### ACEs -/

/-- The body of an ACE of this type has flags and GUIDs of its own. -/
def IsObjectType (type : UInt8) : Prop :=
  type ∈ ([0x05, 0x06, 0x07, 0x08, 0x0b, 0x0c, 0x0f, 0x10] : List UInt8)

instance (type : UInt8) : Decidable (IsObjectType type) :=
  inferInstanceAs (Decidable (_ ∈ _))

/-- The flags that say which of the GUIDs are there. -/
def objectFlags (objectType inheritedObjectType : Option Guid) : Nat :=
  objectType.isSome.toNat + 2 * inheritedObjectType.isSome.toNat

/-- The flags and GUIDs of an object ACE. -/
def objectBytes (s : AceSpec) : Bytes :=
  leBytes 4 (objectFlags s.objectType s.inheritedObjectType) ++
    (guidBytes s.objectType ++ guidBytes s.inheritedObjectType)

/-- What follows the header of an ACE. -/
def aceBody (s : AceSpec) : Bytes :=
  leBytes 4 s.mask.toNat ++ ((if IsObjectType s.type then objectBytes s else []) ++
    (s.sid ++ s.appData.getD []))

/-- The bytes of an ACE. -/
def aceBytes (s : AceSpec) : Bytes :=
  s.type :: s.flags :: (leBytes 2 (4 + (aceBody s).length) ++ aceBody s)

/-- The ACE has a SID and GUIDs only where there is room for them, and its length fits its header.
-/
structure AceSpec.Encodable (s : AceSpec) : Prop where
  sid : IsSid s.sid
  objects : IsObjectType s.type ∨ s.objectType = none ∧ s.inheritedObjectType = none
  length_lt : 4 + (aceBody s).length < 2 ^ 16

instance (s : AceSpec) : Decidable s.Encodable :=
  decidable_of_iff (IsSid s.sid ∧
      (IsObjectType s.type ∨ s.objectType = none ∧ s.inheritedObjectType = none) ∧
      4 + (aceBody s).length < 2 ^ 16)
    ⟨fun h => ⟨h.1, h.2.1, h.2.2⟩, fun h => ⟨h.sid, h.objects, h.length_lt⟩⟩

/-- The flags and GUIDs of an object ACE, and the rest. -/
def cutObjects (b : Bytes) : Option (Option Guid × Option Guid × Bytes) := do
  let (flags, b) ← cut 4 b
  let (objectType, b) ← cutGuid (ofLeBytes flags % 2 = 1) b
  let (inheritedObjectType, b) ← cutGuid (ofLeBytes flags / 2 % 2 = 1) b
  return (objectType, inheritedObjectType, b)

/-- The view of an ACE, from what follows its header. -/
def readBody (type flags : UInt8) (body : Bytes) : Option AceView := do
  let (mask, body) ← cut 4 body
  let (objectType, inheritedObjectType, body) ←
    if IsObjectType type then cutObjects body else some (none, none, body)
  let (sid, appData) ← cutSid body
  return { rawType := type, rawFlags := flags, rawMask := .ofNat (ofLeBytes mask),
           rawSid := some sid, rawObjectType := objectType,
           rawInheritedObjectType := inheritedObjectType, rawAppData := some appData }

/-- The view of an ACE, and the rest. -/
def readAce : Bytes → Option (AceView × Bytes)
  | type :: flags :: b => do
    let (size, b) ← cut 2 b
    let (body, b) ← cut (ofLeBytes size - 4) b
    let ace ← readBody type flags body
    return (ace, b)
  | _ => none

/-- The view of an ACE of this description. -/
def AceSpec.view (s : AceSpec) : AceView :=
  { rawType := s.type, rawFlags := s.flags, rawMask := s.mask, rawSid := some s.sid,
    rawObjectType := s.objectType, rawInheritedObjectType := s.inheritedObjectType,
    rawAppData := some (s.appData.getD []) }

theorem AceSpec.reads_view (s : AceSpec) : s.view.Reads s := ⟨rfl, rfl, rfl, rfl, rfl, rfl, rfl⟩

theorem cutObjects_objectBytes (s : AceSpec) (b : Bytes) :
    cutObjects (objectBytes s ++ b) = some (s.objectType, s.inheritedObjectType, b) := by
  have hobject := Bool.toNat_le s.objectType.isSome
  have hinherited := Bool.toNat_le s.inheritedObjectType.isSome
  have hflags : ofLeBytes (leBytes 4 (objectFlags s.objectType s.inheritedObjectType))
      = s.objectType.isSome.toNat + 2 * s.inheritedObjectType.isSome.toNat := by
    refine ofLeBytes_leBytes 4 _ ?_
    unfold objectFlags
    omega
  -- each bit of the flags is one of the two
  have hfirst : decide ((s.objectType.isSome.toNat + 2 * s.inheritedObjectType.isSome.toNat) % 2 = 1)
      = s.objectType.isSome := by
    rw [Nat.add_mul_mod_self_left]
    cases s.objectType.isSome <;> rfl
  have hsecond :
      decide ((s.objectType.isSome.toNat + 2 * s.inheritedObjectType.isSome.toNat) / 2 % 2 = 1)
        = s.inheritedObjectType.isSome := by
    cases s.objectType.isSome <;> cases s.inheritedObjectType.isSome <;> rfl
  unfold cutObjects objectBytes
  rw [List.append_assoc, List.append_assoc, cut_append (length_leBytes 4 _)]
  simp only [Option.bind_eq_bind, Option.bind_some, hflags, hfirst, hsecond, cutGuid_append]
  rfl

theorem readBody_aceBody {s : AceSpec} (hs : s.Encodable) :
    readBody s.type s.flags (aceBody s) = some s.view := by
  have hmask : UInt32.ofNat (ofLeBytes (leBytes 4 s.mask.toNat)) = s.mask := by
    rw [ofLeBytes_leBytes 4 _ s.mask.toNat_lt, UInt32.ofNat_toNat]
  unfold readBody aceBody
  rw [cut_append (length_leBytes 4 _)]
  simp only [Option.bind_eq_bind, Option.bind_some]
  split_ifs with hobject
  · simp only [cutObjects_objectBytes, Option.bind_some, cutSid_append hs.sid, hmask]
    rfl
  · obtain ⟨hnone, hnone'⟩ := hs.objects.resolve_left hobject
    simp only [List.nil_append, Option.bind_some, cutSid_append hs.sid, hmask, AceSpec.view, hnone,
      hnone']
    rfl

theorem readAce_aceBytes {s : AceSpec} (hs : s.Encodable) (b : Bytes) :
    readAce (aceBytes s ++ b) = some (s.view, b) := by
  have hsize : ofLeBytes (leBytes 2 (4 + (aceBody s).length)) - 4 = (aceBody s).length := by
    rw [ofLeBytes_leBytes 2 _ hs.length_lt]
    omega
  unfold aceBytes
  rw [List.cons_append, List.cons_append, List.append_assoc, readAce,
    cut_append (length_leBytes 2 _)]
  simp only [Option.bind_eq_bind, Option.bind_some, hsize, cut_append rfl, readBody_aceBody hs]
  rfl

/-! ### ACLs -/

/-- The views of the first `n` ACEs, and the rest. -/
def readAces : Nat → Bytes → Option (List AceView × Bytes)
  | 0, b => some ([], b)
  | n + 1, b => do
    let (ace, b) ← readAce b
    let (aces, b) ← readAces n b
    return (ace :: aces, b)

theorem readAces_aceBytes {specs : List AceSpec} (hspecs : ∀ s ∈ specs, s.Encodable) (b : Bytes) :
    readAces specs.length (specs.flatMap aceBytes ++ b) = some (specs.map AceSpec.view, b) := by
  induction specs with
  | nil => rfl
  | cons s specs ih =>
    rw [List.flatMap_cons, List.append_assoc, List.length_cons, readAces,
      readAce_aceBytes (hspecs s List.mem_cons_self)]
    simp only [Option.bind_eq_bind, Option.bind_some,
      ih fun s' hs' => hspecs s' (List.mem_cons_of_mem s hs')]
    rfl

/-- The revision of an ACL says whether it has object ACEs. -/
def aclRevision (specs : List AceSpec) : UInt8 :=
  if ∃ s ∈ specs, IsObjectType s.type then 4 else 2

/-- The bytes of an ACL. -/
def aclBytes (specs : List AceSpec) : Bytes :=
  [aclRevision specs, 0] ++ (leBytes 2 (8 + (specs.flatMap aceBytes).length) ++
    (leBytes 2 specs.length ++ ([0, 0] ++ specs.flatMap aceBytes)))

/-- A view of the bytes, if they are an ACL and nothing else. -/
def parseAcl (acl : Bytes) : Option AclView := do
  let (_, b) ← cut 2 acl
  let (size, b) ← cut 2 b
  let (count, b) ← cut 2 b
  let (_, b) ← cut 2 b
  let (aces, b) ← readAces (ofLeBytes count) b
  if ofLeBytes size = acl.length ∧ b = [] then return .ofAces aces else none

/-- Every ACE takes some bytes. -/
theorem length_le_flatMap_aceBytes (specs : List AceSpec) :
    specs.length ≤ (specs.flatMap aceBytes).length := by
  induction specs with
  | nil => exact Nat.zero_le _
  | cons s specs ih =>
    have : 0 < (aceBytes s).length := Nat.succ_pos _
    rw [List.flatMap_cons, List.length_append, List.length_cons]
    omega

theorem length_aclBytes (specs : List AceSpec) :
    (aclBytes specs).length = 8 + (specs.flatMap aceBytes).length := by
  simp only [aclBytes, List.length_append, length_leBytes, List.length_cons, List.length_nil]
  omega

theorem parseAcl_aclBytes {specs : List AceSpec} (hspecs : ∀ s ∈ specs, s.Encodable)
    (hlen : (aclBytes specs).length < 2 ^ 16) :
    parseAcl (aclBytes specs) = some (.ofAces (specs.map AceSpec.view)) := by
  have hcount := length_le_flatMap_aceBytes specs
  have hlength := length_aclBytes specs
  have hsize : ofLeBytes (leBytes 2 (8 + (specs.flatMap aceBytes).length))
      = 8 + (specs.flatMap aceBytes).length := ofLeBytes_leBytes 2 _ (by omega)
  have hnumber : ofLeBytes (leBytes 2 specs.length) = specs.length :=
    ofLeBytes_leBytes 2 _ (by omega)
  have hrevision : ([aclRevision specs, 0] : Bytes).length = 2 := rfl
  have hzeros : ([0, 0] : Bytes).length = 2 := rfl
  have haces := readAces_aceBytes hspecs []
  rw [List.append_nil] at haces
  unfold parseAcl
  rw [hlength]
  unfold aclBytes
  simp only [Option.bind_eq_bind, Option.bind_some, cut_append hrevision,
    cut_append (length_leBytes 2 _), cut_append hzeros, hsize, hnumber, haces]
  rfl

/-- A view with these entries reads back their descriptions. -/
theorem reads_ofAces {specs : List AceSpec} (hlen : specs.length < 2 ^ 32) :
    (AclView.ofAces (specs.map AceSpec.view)).Reads specs := by
  constructor
  · show (UInt32.ofNat (specs.map AceSpec.view).length).toNat = specs.length
    rw [List.length_map, UInt32.toNat_ofNat_of_lt' hlen]
  · intro i s hs
    refine ⟨s.view, ?_, s.reads_view⟩
    have hi := (List.getElem?_eq_some_iff.mp hs).1
    show (specs.map AceSpec.view)[(UInt32.ofNat i).toNat]? = some s.view
    rw [UInt32.toNat_ofNat_of_lt' (by show i < 2 ^ 32; omega), List.getElem?_map, hs]
    rfl

end Peios.Security
