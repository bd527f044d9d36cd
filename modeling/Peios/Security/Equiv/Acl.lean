import Peios.Equiv.Util
import Peios.Interaction.Latch
import Peios.Security.AclFormat

/-!
# Correctness of `AclView::to_acl`

`AclLib` is what is assumed of libpeios: a builder that appends each ACE it accepts and latches an
error for one it refuses, a serializer, and a parser whose views read back what was serialized.
`AclLib.wire` is such a library, with the bytes that the kernel's headers describe.
`toAcl_lossless` says that the ACL `to_acl` returns, if it returns one, has the entries of the view
it was made from.
-/

namespace Peios.Security

open Interaction Prog Latched

/-! ### What libpeios does -/

/-- libpeios' builder, serializer and parser of ACLs. -/
structure AclLib where
  /-- Whether a builder that holds these ACEs refuses another one, and with which `errno`. -/
  refuses : List AceSpec → AceSpec → Option Errno
  refuses_ne_zero : ∀ specs spec, refuses specs spec ≠ some 0
  /-- What the ACEs are serialized as. -/
  serialize : List AceSpec → Except Errno Bytes
  /-- Only a buffer that is too small makes the serializer report `ERANGE`. -/
  serialize_ne : ∀ specs, serialize specs ≠ .error ERANGE
  length_le : ∀ specs b, serialize specs = .ok b → b.length ≤ Util.isizeMax
  /-- `peios_acl_parse`. -/
  parse : Bytes → Except Errno AclView
  /-- What a builder without an error serializes is read back. -/
  parse_serialize : ∀ specs b, (pushAll (appends refuses) ⟨[], none⟩ specs).error = none →
    serialize specs = .ok b → ∃ v, parse b = .ok v ∧ v.Reads specs

namespace AclLib

variable (lib : AclLib)

/-- The builder's state: the ACEs it has accepted, and the latched error. -/
abbrev State := Latched (List AceSpec) Errno

/-- An empty builder. -/
def empty : State := ⟨[], none⟩

/-- Give the builder an ACE. -/
def push (s : State) (spec : AceSpec) : State := Latched.push (appends lib.refuses) s spec

/-- What a call of the serializer sees of a builder. -/
def moment (s : State) : Util.Moment 0 :=
  match h : lib.serialize s.inner with
  | .ok b =>
    { contents := b, fits := lib.length_le _ _ h, failure := none, failure_ne := by simp }
  | .error e =>
    { contents := [], fits := Nat.zero_le _, failure := some e,
      failure_ne := by
        rintro h'
        rw [Option.some.inj h'] at h
        exact lib.serialize_ne _ h }

/-- What libpeios answers. -/
def builder : Handler AclCall AclReply State
  | .new, _ => (true, empty)
  | .add spec, s => ((), lib.push s spec)
  | .error, s => (s.error.getD 0, s)
  | .finish c, s => ((lib.moment s).answer c, s)

/-! ### The loop -/

variable {lib} {s : State} {v : AclView}

theorem exec_aclCall (c : AclCall) (s : State) :
    exec lib.builder (aclCall c) s = (.ok (lib.builder c s).1, (lib.builder c s).2) := rfl

/-- The builder is given every entry, if all of them can be read. -/
theorem exec_copyEntries {indices : List Nat} {aces : List Ace}
    (h : indices.mapM v.entry = some aces) (s : State) :
    exec lib.builder (forM indices v.copyEntry) s
      = (.ok (), pushAll (appends lib.refuses) s (aces.map AclBuilder.spec)) := by
  induction indices generalizing aces s with
  | nil =>
    obtain rfl : [] = aces := by simpa using h
    rfl
  | cons i indices ih =>
    simp only [List.mapM_cons, Option.bind_eq_bind, Option.bind_eq_some_iff, Option.pure_def,
      Option.some.injEq] at h
    obtain ⟨ace, hace, aces, haces, rfl⟩ := h
    have hcopy : exec lib.builder (v.copyEntry i) s = (.ok (), lib.push s (AclBuilder.spec ace)) := by
      unfold AclView.copyEntry
      rw [hace]
      rfl
    rw [List.forM_cons, exec_bind_ok hcopy]
    exact ih haces _

/-- An entry that cannot be read ends the loop. -/
theorem exec_copyEntries_error (lib : AclLib) {indices : List Nat}
    (h : indices.mapM v.entry = none) (s : State) :
    ∃ s', exec lib.builder (forM indices v.copyEntry) s = (.error (.errno EINVAL), s') := by
  induction indices generalizing s with
  | nil => simp at h
  | cons i indices ih =>
    rw [List.forM_cons]
    rcases hace : v.entry i with _ | ace
    · have hcopy : exec lib.builder (v.copyEntry i) s = (.error (.errno EINVAL), s) := by
        unfold AclView.copyEntry
        rw [hace]
        rfl
      exact ⟨s, exec_bind_error hcopy⟩
    · have hcopy : exec lib.builder (v.copyEntry i) s
          = (.ok (), lib.push s (AclBuilder.spec ace)) := by
        unfold AclView.copyEntry
        rw [hace]
        rfl
      have hrest : indices.mapM v.entry = none := by
        rcases hrest : indices.mapM v.entry with _ | aces
        · rfl
        · simp [List.mapM_cons, hace, hrest] at h
      rw [exec_bind_ok hcopy]
      exact ih hrest _

/-! ### The builder's end -/

theorem serialize_of_moment (h : (lib.moment s).failure = none) :
    lib.serialize s.inner = .ok (lib.moment s).contents := by
  unfold moment at h ⊢
  split at h
  · assumption
  · cases h

/-- The serializer's probe returns what the builder's ACEs are serialized as, or fails. -/
theorem exec_finish (lib : AclLib) (s : State) :
    (∃ b, (exec lib.builder (interpE (fun c => .lift (AclCall.finish c)) Util.probe) s).1 = .ok b ∧
      lib.serialize s.inner = .ok b) ∨
    ∃ e, (exec lib.builder (interpE (fun c => .lift (AclCall.finish c)) Util.probe) s).1
      = .error (.errno e) := by
  -- the builder does not change, so it is an object that is the same at every moment
  have heq : (exec lib.builder (interpE (fun c => .lift (AclCall.finish c)) Util.probe) s).1
      = (exec (Util.observed fun _ => lib.moment s) Util.probe 0).1 := by
    unfold exec interpE
    rw [ExceptT.run_mk, run_interp]
    refine (run_congr (fun s' _ => s' = s) ?_ _ rfl).1
    rintro c s' n rfl
    exact ⟨rfl, rfl⟩
  have hprobe := Util.probe_linearizable fun _ => lib.moment s
  rw [heq]
  rcases hprobe.returns with ⟨b, hb⟩ | herror
  · left
    refine ⟨b, hb, ?_⟩
    obtain ⟨k, hk, hcontents⟩ := hprobe.ok b hb
    have hmoment : (lib.moment s).failure = none := by
      rcases hf : (lib.moment s).failure with _ | e
      · rfl
      · have hfail := (hprobe.failure k hk e hf).2
        rw [hb] at hfail
        cases hfail
    rw [serialize_of_moment hmoment, Except.ok.inj hcontents]
  · exact .inr herror

theorem error_pushAll_ne (specs : List AceSpec) :
    (pushAll (appends lib.refuses) empty specs).error ≠ some 0 := by
  intro h
  rcases refused_of_error_pushAll h with h | ⟨parts, spec, h⟩
  · cases h
  · unfold appends at h
    rcases hr : lib.refuses parts spec with _ | e
    · rw [hr] at h
      cases h
    · rw [hr] at h
      obtain rfl : e = 0 := Option.some.inj h
      exact lib.refuses_ne_zero _ _ hr

/-- Building fails with the latched error, or returns what the builder holds. -/
theorem exec_build (hs : s.error ≠ some 0) :
    (∃ b, (exec lib.builder AclBuilder.build s).1 = .ok b ∧ s.error = none ∧
      lib.serialize s.inner = .ok b) ∨
    ∃ e, (exec lib.builder AclBuilder.build s).1 = .error (.errno e) := by
  unfold AclBuilder.build
  rw [exec_bind_ok (exec_aclCall .error s)]
  rcases he : s.error with _ | e
  · have hcall : (lib.builder .error s).1 = (0 : Errno) := by
      show s.error.getD 0 = 0
      rw [he]
      rfl
    rw [if_neg (by simpa using hcall)]
    rcases exec_finish lib s with ⟨b, hb, hserialize⟩ | herror
    · exact .inl ⟨b, hb, rfl, hserialize⟩
    · exact .inr herror
  · right
    have hcall : (lib.builder .error s).1 = e := by
      show s.error.getD 0 = e
      rw [he]
      rfl
    rw [hcall, if_pos (by rintro rfl; exact hs he)]
    exact ⟨e, rfl⟩

/-! ### A library -/

/-- The library that works with the bytes of `aclBytes`, and refuses what has none. -/
def wire : AclLib where
  refuses _ spec := if spec.Encodable then none else some EINVAL
  refuses_ne_zero := by
    intro _ spec
    split_ifs
    · simp
    · decide
  serialize specs :=
    if (aclBytes specs).length < 2 ^ 16 then .ok (aclBytes specs) else .error EINVAL
  serialize_ne := by
    intro specs
    split_ifs
    · simp
    · decide
  length_le := by
    intro specs b hb
    split_ifs at hb with hlen
    obtain rfl := Except.ok.inj hb
    exact hlen.le.trans (by decide)
  parse acl := (parseAcl acl).elim (.error EINVAL) .ok
  parse_serialize := by
    intro specs b hnone hb
    split_ifs at hb with hlen
    obtain rfl := Except.ok.inj hb
    have hspecs : ∀ s ∈ specs, s.Encodable := by
      intro s hs
      obtain ⟨parts, haccepted⟩ := accepted_of_error_pushAll hnone s hs
      by_contra hnot
      rw [snd_appends, if_neg hnot] at haccepted
      cases haccepted
    refine ⟨_, by rw [parseAcl_aclBytes hspecs hlen]; rfl, reads_ofAces ?_⟩
    have hcount := length_le_flatMap_aceBytes specs
    have hlength := length_aclBytes specs
    omega

end AclLib

/-! ### What is kept -/

/-- Two views of an ACE have the same fields, and a SID. -/
structure AceView.Same (a b : AceView) : Prop where
  type : b.rawType = a.rawType
  flags : b.rawFlags = a.rawFlags
  mask : b.rawMask = a.rawMask
  sid : ∃ sid, a.rawSid = some sid ∧ b.rawSid = some sid
  objectType : b.rawObjectType = a.rawObjectType
  inheritedObjectType : b.rawInheritedObjectType = a.rawInheritedObjectType
  appData : b.rawAppData.getD [] = a.rawAppData.getD []

/-- Two views of an ACL have the same entries in the same order. -/
def AclView.Same (v w : AclView) : Prop :=
  w.len = v.len ∧ ∀ i < v.len, ∃ a b, v.ace i = some a ∧ w.ace i = some b ∧ a.Same b

/-- An entry that cannot be read: there is no ACE, or it has no SID. -/
def AclView.Unreadable (v : AclView) (i : Nat) : Prop :=
  v.ace i = none ∨ ∃ a, v.ace i = some a ∧ a.sid = none

theorem mapM_getElem? {α β : Type} {f : α → Option β} {l : List α} {r : List β}
    (h : l.mapM f = some r) (i : Nat) : r[i]? = l[i]?.bind f := by
  induction l generalizing r i with
  | nil =>
    obtain rfl : [] = r := by simpa using h
    rfl
  | cons x l ih =>
    simp only [List.mapM_cons, Option.bind_eq_bind, Option.bind_eq_some_iff, Option.pure_def,
      Option.some.injEq] at h
    obtain ⟨y, hy, r, hr, rfl⟩ := h
    cases i with
    | zero => simp [hy]
    | succ i => simpa using ih hr i

theorem length_of_mapM {α β : Type} {f : α → Option β} {l : List α} {r : List β}
    (h : l.mapM f = some r) : r.length = l.length := by
  induction l generalizing r with
  | nil =>
    obtain rfl : [] = r := by simpa using h
    rfl
  | cons x l ih =>
    simp only [List.mapM_cons, Option.bind_eq_bind, Option.bind_eq_some_iff, Option.pure_def,
      Option.some.injEq] at h
    obtain ⟨y, -, r, hr, rfl⟩ := h
    rw [List.length_cons, List.length_cons, ih hr]

/-- What is copied are the entries at all indices of the view. -/
theorem getElem?_of_entries {v : AclView} {aces : List Ace}
    (haces : (List.range v.len).mapM v.entry = some aces) {i : Nat} (hi : i < v.len) :
    ∃ ace, v.entry i = some ace ∧ aces[i]? = some ace := by
  have hlen : i < aces.length := by
    rw [length_of_mapM haces, List.length_range]
    exact hi
  have hget := mapM_getElem? haces i
  rw [List.getElem?_range hi, List.getElem?_eq_getElem hlen] at hget
  exact ⟨aces[i], hget.symm, List.getElem?_eq_getElem hlen⟩

/-- There is nothing to add for an entry that cannot be read. -/
theorem entry_of_unreadable {v : AclView} {i : Nat} (h : v.Unreadable i) : v.entry i = none := by
  unfold AclView.entry
  rcases h with hnone | ⟨a, ha, hsid⟩
  · rw [hnone]
    rfl
  · rw [ha]
    show a.sid.bind _ = none
    rw [hsid]
    rfl

/-- What is added for an entry is read back as the entry was. -/
theorem same_of_reads {v : AclView} {i : Nat} {ace : Ace} (hace : v.entry i = some ace)
    {b : AceView} (hb : b.Reads (AclBuilder.spec ace)) : ∃ a, v.ace i = some a ∧ a.Same b := by
  unfold AclView.entry at hace
  simp only [Option.bind_eq_bind, Option.bind_eq_some_iff, Option.pure_def,
    Option.some.injEq] at hace
  obtain ⟨a, ha, sid, hsid, rfl⟩ := hace
  refine ⟨a, ha, ?_⟩
  constructor
  · exact hb.type.trans (AceType.toRaw_fromRaw _)
  · exact hb.flags
  · exact hb.mask
  · exact ⟨sid, hsid, hb.sid⟩
  · exact hb.objectType
  · exact hb.inheritedObjectType
  · exact hb.appData

/-- **`AclView::to_acl` is lossless or fails**: it returns an error, or an ACL whose view has the
same entries in the same order; and it fails when an entry cannot be read. -/
theorem toAcl_lossless (lib : AclLib) (v : AclView) (s : AclLib.State) :
    ((∃ acl w, (exec lib.builder v.toAcl s).1 = .ok acl ∧ lib.parse acl = .ok w ∧ v.Same w) ∨
      ∃ e, (exec lib.builder v.toAcl s).1 = .error (.errno e)) ∧
    ((∃ i < v.len, v.Unreadable i) → (exec lib.builder v.toAcl s).1 = .error (.errno EINVAL)) := by
  have hnew : exec lib.builder AclBuilder.new s = (.ok (), AclLib.empty) := rfl
  unfold AclView.toAcl
  rw [exec_bind_ok hnew]
  rcases haces : (List.range v.len).mapM v.entry with _ | aces
  · -- an entry cannot be read
    obtain ⟨s', hloop⟩ := AclLib.exec_copyEntries_error lib haces AclLib.empty
    rw [exec_bind_error hloop]
    exact ⟨.inr ⟨EINVAL, rfl⟩, fun _ => rfl⟩
  constructor
  · rw [exec_bind_ok (AclLib.exec_copyEntries haces AclLib.empty)]
    rcases AclLib.exec_build (AclLib.error_pushAll_ne _) with ⟨acl, hacl, hnone, hserialize⟩ | herror
    · left
      -- a builder without an error has every entry
      have hinner := inner_pushAll_appends hnone
      rw [hinner] at hserialize
      obtain ⟨w, hparse, hlen, hreads⟩ := lib.parse_serialize _ _ hnone hserialize
      refine ⟨acl, w, hacl, hparse, ?_, ?_⟩
      · rw [hlen, List.length_map, length_of_mapM haces, List.length_range]
      · intro i hi
        obtain ⟨ace, hace, hi'⟩ := getElem?_of_entries haces hi
        have hspec : (aces.map AclBuilder.spec)[i]? = some (AclBuilder.spec ace) := by
          rw [List.getElem?_map, hi']
          rfl
        obtain ⟨b, hb, hreads⟩ := hreads i _ hspec
        obtain ⟨a, ha, hsame⟩ := same_of_reads hace hreads
        exact ⟨a, b, ha, hb, hsame⟩
    · exact .inr herror
  · rintro ⟨i, hi, hunreadable⟩
    obtain ⟨ace, hace, -⟩ := getElem?_of_entries haces hi
    rw [entry_of_unreadable hunreadable] at hace
    cases hace

/-- Everyone may read; users may write when a condition holds; and the owner may create one class of
object, which is inherited by another. -/
def threeAces : AclView :=
  .ofAces <| List.map AceSpec.view
    [{ type := 0x00, flags := 0x03, mask := 0x80000000, sid := [1, 1, 0, 0, 0, 0, 0, 1, 0, 0, 0, 0],
       objectType := none, inheritedObjectType := none, appData := none },
     { type := 0x09, flags := 0x00, mask := 0x40000000,
       sid := [1, 2, 0, 0, 0, 0, 0, 5, 32, 0, 0, 0, 33, 2, 0, 0], objectType := none,
       inheritedObjectType := none, appData := some [0x61, 0x72, 0x74, 0x78, 1, 0, 0, 0] },
     { type := 0x05, flags := 0x0a, mask := 0x00000001, sid := [1, 1, 0, 0, 0, 0, 0, 3, 0, 0, 0, 0],
       objectType := some (.replicate 16 0xbf), inheritedObjectType := some (.replicate 16 0x28),
       appData := none }]

theorem toAcl_lossless_threeAces :
    ∃ acl w, (exec AclLib.wire.builder threeAces.toAcl AclLib.empty).1 = .ok acl ∧
      AclLib.wire.parse acl = .ok w ∧ threeAces.Same w := by
  rcases (toAcl_lossless AclLib.wire threeAces AclLib.empty).1 with hkept | ⟨e, he⟩
  · exact hkept
  · have hok : (exec AclLib.wire.builder threeAces.toAcl AclLib.empty).1.isOk = true := by
      decide +kernel
    rw [he] at hok
    cases hok

end Peios.Security
