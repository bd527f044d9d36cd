import Peios.NamedBits
import Peios.Security.Mask

/-!
# Names of privileges

`NAMES` is the table of masks of a `NamedBits.Table`, which is where names and bits are shown to be
inverse.  `canonical_name` looks a mask up only if it has one bit; every mask in the table does, so
the check rejects nothing that would be found.
-/

namespace Peios.Security.Privileges

open NamedBits

/-- The bits with a name. -/
def table : Table String 64 where
  entries :=
    [("SeCreateTokenPrivilege", 2),
      ("SeAssignPrimaryTokenPrivilege", 3),
      ("SeLockMemoryPrivilege", 4),
      ("SeIncreaseQuotaPrivilege", 5),
      ("SeTcbPrivilege", 7),
      ("SeSecurityPrivilege", 8),
      ("SeTakeOwnershipPrivilege", 9),
      ("SeLoadDriverPrivilege", 10),
      ("SeSystemProfilePrivilege", 11),
      ("SeSystemtimePrivilege", 12),
      ("SeProfileSingleProcessPrivilege", 13),
      ("SeIncreaseBasePriorityPrivilege", 14),
      ("SeBackupPrivilege", 17),
      ("SeRestorePrivilege", 18),
      ("SeShutdownPrivilege", 19),
      ("SeDebugPrivilege", 20),
      ("SeAuditPrivilege", 21),
      ("SeChangeNotifyPrivilege", 23),
      ("SeRemoteShutdownPrivilege", 24),
      ("SeManageVolumePrivilege", 28),
      ("SeImpersonatePrivilege", 29),
      ("SeRelabelPrivilege", 32),
      ("SeCreateSymbolicLinkPrivilege", 35)]
  nodup := by decide
  sorted := by decide
  lt := by decide

theorem masks_table : table.masks = NAMES := by decide

/-! ### One bit -/

theorem countOnes_twoPow {i : Nat} (hi : i < 64) : countOnes (.twoPow 64 i) = 1 := by
  have hbits : (BitVec.twoPow 64 i).getLsbD = fun j => j == i := by
    funext j
    rw [BitVec.getLsbD_twoPow, decide_eq_true hi, Bool.true_and, beq_eq_decide,
      decide_eq_decide.mpr eq_comm]
  unfold countOnes
  rw [hbits]
  exact List.count_eq_one_of_mem List.nodup_range (List.mem_range.mpr hi)

/-- The check for one bit rejects no mask that has a name. -/
theorem canonicalName_eq (p : Privileges) : p.canonicalName = byMask table.masks p := by
  unfold canonicalName
  split_ifs with hcount
  · rcases hname : byMask table.masks p with _ | name
    · rfl
    · -- a mask in the table has one bit
      obtain ⟨i, hi, rfl⟩ := table.mem_masks.mp (table.byMask_eq_some.mp hname)
      exact absurd (countOnes_twoPow (table.lt _ hi)) hcount
  · rw [masks_table]
    rfl

theorem parseName_eq (name : String) : parseName name = byName table.masks name := by
  rw [masks_table]
  rfl

theorem canonicalNames_eq (m : Privileges) : m.canonicalNames = namesIn table.masks m := by
  rw [masks_table]
  rfl

/-! ### The result -/

/-- The names of a mask are those of its bits with a name, from the lowest to the highest; and what
they stand for is the mask without its other bits. -/
structure Described (m : Privileges) (names : List String) : Prop where
  inOrder : names = ((List.range 64).filter m.getLsbD).filterMap fun i =>
    canonicalName (.twoPow 64 i)
  nodup : names.Nodup
  union : ∃ ps, names.map parseName = ps.map some ∧
    ∀ i < 64, (union ps).getLsbD i = (m.getLsbD i && (canonicalName (.twoPow 64 i)).isSome)

theorem described (m : Privileges) : Described m m.canonicalNames where
  inOrder := by
    simp only [canonicalNames_eq, canonicalName_eq]
    exact table.namesIn_eq m
  nodup := by
    rw [canonicalNames_eq]
    exact table.nodup_namesIn m
  union := by
    refine ⟨(table.entriesIn m).map fun e => .twoPow 64 e.2, ?_, ?_⟩
    · rw [canonicalNames_eq, ← table.map_byName_namesIn m]
      exact List.map_congr_left fun name _ => parseName_eq name
    · intro i hi
      rw [canonicalName_eq]
      exact table.getLsbD_union_entriesIn m hi

/-- A mask with a name is a single bit. -/
theorem canonicalName_eq_none_or (p : Privileges) :
    p.canonicalName = none ∨ ∃ i < 64, p = .twoPow 64 i := by
  rcases hname : p.canonicalName with _ | name
  · exact .inl rfl
  · rw [canonicalName_eq, table.byMask_eq_some, table.mem_masks] at hname
    obtain ⟨i, hi, rfl⟩ := hname
    exact .inr ⟨i, table.lt _ hi, rfl⟩

/-- **Names and bits are inverse**, over whole masks and over single ones: a name stands for the
mask that has it, and no mask has one but single bits. -/
theorem names_inverse :
    (∀ m : Privileges, Described m m.canonicalNames) ∧
    (∀ (name : String) (p : Privileges), parseName name = some p ↔ p.canonicalName = some name) ∧
    ∀ p : Privileges, p.canonicalName = none ∨ ∃ i < 64, p = .twoPow 64 i := by
  refine ⟨described, ?_, canonicalName_eq_none_or⟩
  intro name p
  rw [parseName_eq, canonicalName_eq]
  exact table.byName_eq_some_iff

/-- A bit without a name is skipped. -/
example : canonicalNames (TCB ||| .twoPow 64 40) = ["SeTcbPrivilege"] := by decide

end Peios.Security.Privileges
