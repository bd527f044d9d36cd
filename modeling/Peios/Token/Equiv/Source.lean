import Mathlib.Data.List.GetD
import Peios.Bytes.Padding
import Peios.Token.Builder

/-!
# The source name of a token

`TokenBuilder::source` puts a name in a field of eight bytes, with zeros after it.
`source_faithful_iff` says which names can be read off it: those that do not end with a NUL.
`source` does not look for one.
-/

namespace Peios.Token

open Interaction ByteString

/-- The field is the name, padded. -/
theorem toList_sourceField {name : Bytes} (h : name.length ≤ SOURCE_NAME_LEN) :
    (TokenBuilder.sourceField name).toList = padded 0 SOURCE_NAME_LEN name := by
  have hfield : (TokenBuilder.sourceField name).toList
      = List.ofFn fun i : Fin SOURCE_NAME_LEN => name.getD i.val 0 := Vector.toList_ofFn
  have hlen : (padded 0 SOURCE_NAME_LEN name).length = SOURCE_NAME_LEN := length_padded h
  rw [hfield]
  apply List.ext_getElem
  · rw [List.length_ofFn, hlen]
  · intro i hi hpadded
    rw [List.getElem_ofFn]
    simp only [padded]
    rcases lt_or_ge i name.length with hlt | hge
    · rw [List.getElem_append_left hlt, List.getD_eq_getElem _ _ hlt]
    · rw [List.getElem_append_right hge, List.getElem_replicate, List.getD_eq_default _ _ hge]

variable {b : TokenBuilder} {name : String} {sourceId : UInt64}
  {field : Vector UInt8 SOURCE_NAME_LEN}

/-- The name is accepted, and passed to libpeios in the field. -/
def Passes (b : TokenBuilder) (name : String) (sourceId : UInt64)
    (field : Vector UInt8 SOURCE_NAME_LEN) : Prop :=
  b.source name sourceId = b.set (.source field sourceId)

/-- The name is rejected. -/
def Rejects (b : TokenBuilder) (name : String) (sourceId : UInt64) : Prop :=
  b.source name sourceId = pure (b.latch EINVAL)

/-- The name is rejected, or passed in a field that it is read off by dropping the padding. -/
def Faithful (b : TokenBuilder) (name : String) (sourceId : UInt64) : Prop :=
  Rejects b name sourceId ∨ ∃ field, Passes b name sourceId field ∧ trim 0 field.toList = utf8 name

/-- A setter makes a call. -/
theorem set_ne_pure (part : Part) (b' : TokenBuilder) : b.set part ≠ pure b' := nofun

theorem set_injective {part part' : Part} (h : b.set part = b.set part') : part = part' := by
  have hcall : Prog.call (BuilderCall.set part) _ = Prog.call (BuilderCall.set part') _ := h
  exact BuilderCall.set.inj (Prog.call.inj hcall).1

theorem rejects_iff : Rejects b name sourceId ↔ SOURCE_NAME_LEN < (utf8 name).length := by
  unfold Rejects TokenBuilder.source
  split_ifs with h
  · exact iff_of_true rfl h
  · exact iff_of_false (set_ne_pure _ _) h

theorem passes_iff : Passes b name sourceId field ↔
    (utf8 name).length ≤ SOURCE_NAME_LEN ∧ field = TokenBuilder.sourceField (utf8 name) := by
  unfold Passes TokenBuilder.source
  split_ifs with h
  · refine iff_of_false (set_ne_pure _ _).symm ?_
    rintro ⟨hle, -⟩
    omega
  · constructor
    · intro hset
      exact ⟨by omega, (Part.source.inj (set_injective hset)).1.symm⟩
    · rintro ⟨-, rfl⟩
      rfl

/-- **A name is stored faithfully** exactly when it is rejected for its length or does not end with
a NUL; and two names are stored alike exactly when they differ by NULs at the end alone. -/
theorem source_faithful_iff (b : TokenBuilder) (sourceId : UInt64) :
    (∀ name, Faithful b name sourceId ↔
      SOURCE_NAME_LEN < (utf8 name).length ∨ (utf8 name).getLast? ≠ some 0) ∧
    ∀ name name' field field', Passes b name sourceId field → Passes b name' sourceId field' →
      (field = field' ↔ trim 0 (utf8 name) = trim 0 (utf8 name')) := by
  constructor
  · intro name
    unfold Faithful
    rw [rejects_iff]
    constructor
    · rintro (hlong | ⟨field, hpasses, htrim⟩)
      · exact .inl hlong
      · obtain ⟨hle, rfl⟩ := passes_iff.mp hpasses
        rw [toList_sourceField hle] at htrim
        exact .inr (trim_padded_eq_self.mp htrim)
    · rintro (hlong | hlast)
      · exact .inl hlong
      · rcases lt_or_ge SOURCE_NAME_LEN (utf8 name).length with hlong | hle
        · exact .inl hlong
        · refine .inr ⟨_, passes_iff.mpr ⟨hle, rfl⟩, ?_⟩
          rw [toList_sourceField hle]
          exact trim_padded_eq_self.mpr hlast
  · intro name name' field field' hpasses hpasses'
    obtain ⟨hle, rfl⟩ := passes_iff.mp hpasses
    obtain ⟨hle', rfl⟩ := passes_iff.mp hpasses'
    rw [← Vector.toList_inj, toList_sourceField hle, toList_sourceField hle', padded_eq_iff hle hle']

/-- The longest name that fits, and one with a NUL inside. -/
theorem source_faithful_eightBytes :
    Faithful { pending := 0 } "eightbyt" 7 ∧ Faithful { pending := 0 } "a\x00b" 7 ∧
    TokenBuilder.sourceField (utf8 "eightbyt") ≠ TokenBuilder.sourceField (utf8 "a\x00b") := by
  obtain ⟨hfaithful, halike⟩ := source_faithful_iff { pending := 0 } 7
  refine ⟨(hfaithful _).mpr (.inr (by decide)), (hfaithful _).mpr (.inr (by decide)), ?_⟩
  intro heq
  have htrim := (halike "eightbyt" "a\x00b" _ _ (passes_iff.mpr ⟨by decide, rfl⟩)
    (passes_iff.mpr ⟨by decide, rfl⟩)).mp heq
  exact absurd htrim (by decide)

/-- A name and the same with a NUL at the end are stored alike. -/
theorem not_source_faithful_nul :
    Passes { pending := 0 } "a" 7 (TokenBuilder.sourceField (utf8 "a")) ∧
    Passes { pending := 0 } "a\x00" 7 (TokenBuilder.sourceField (utf8 "a")) ∧
    ¬ Faithful { pending := 0 } "a\x00" 7 := by
  refine ⟨passes_iff.mpr ⟨by decide, rfl⟩, passes_iff.mpr ⟨by decide, by decide⟩, ?_⟩
  rintro (hrejects | ⟨field, hpasses, htrim⟩)
  · exact absurd (rejects_iff.mp hrejects) (by decide)
  · obtain ⟨-, rfl⟩ := passes_iff.mp hpasses
    exact absurd htrim (by decide)

end Peios.Token
