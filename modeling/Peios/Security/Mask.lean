import Mathlib.Data.List.Basic

/-!
# Privileges

`Privileges` (`peios/src/security/mask.rs`): a mask of 64 bits, and names for some of them.  The
bits are those of `pkm/token.h`.
-/

namespace Peios.Security

/-! ### Bits -/

def KACS_SE_CREATE_TOKEN_PRIVILEGE : BitVec 64 := 1 <<< 2
def KACS_SE_ASSIGN_PRIMARY_TOKEN_PRIVILEGE : BitVec 64 := 1 <<< 3
def KACS_SE_LOCK_MEMORY_PRIVILEGE : BitVec 64 := 1 <<< 4
def KACS_SE_INCREASE_QUOTA_PRIVILEGE : BitVec 64 := 1 <<< 5
def KACS_SE_TCB_PRIVILEGE : BitVec 64 := 1 <<< 7
def KACS_SE_SECURITY_PRIVILEGE : BitVec 64 := 1 <<< 8
def KACS_SE_TAKE_OWNERSHIP_PRIVILEGE : BitVec 64 := 1 <<< 9
def KACS_SE_LOAD_DRIVER_PRIVILEGE : BitVec 64 := 1 <<< 10
def KACS_SE_SYSTEM_PROFILE_PRIVILEGE : BitVec 64 := 1 <<< 11
def KACS_SE_SYSTEMTIME_PRIVILEGE : BitVec 64 := 1 <<< 12
def KACS_SE_PROFILE_SINGLE_PROCESS_PRIVILEGE : BitVec 64 := 1 <<< 13
def KACS_SE_INCREASE_BASE_PRIORITY_PRIVILEGE : BitVec 64 := 1 <<< 14
def KACS_SE_BACKUP_PRIVILEGE : BitVec 64 := 1 <<< 17
def KACS_SE_RESTORE_PRIVILEGE : BitVec 64 := 1 <<< 18
def KACS_SE_SHUTDOWN_PRIVILEGE : BitVec 64 := 1 <<< 19
def KACS_SE_DEBUG_PRIVILEGE : BitVec 64 := 1 <<< 20
def KACS_SE_AUDIT_PRIVILEGE : BitVec 64 := 1 <<< 21
def KACS_SE_CHANGE_NOTIFY_PRIVILEGE : BitVec 64 := 1 <<< 23
def KACS_SE_REMOTE_SHUTDOWN_PRIVILEGE : BitVec 64 := 1 <<< 24
def KACS_SE_MANAGE_VOLUME_PRIVILEGE : BitVec 64 := 1 <<< 28
def KACS_SE_IMPERSONATE_PRIVILEGE : BitVec 64 := 1 <<< 29
def KACS_SE_RELABEL_PRIVILEGE : BitVec 64 := 1 <<< 32
def KACS_SE_CREATE_SYMBOLIC_LINK_PRIVILEGE : BitVec 64 := 1 <<< 35

/-- `Privileges`: a set of privileges, as its bits. -/
abbrev Privileges := BitVec 64

/-- `u64::count_ones`. -/
def countOnes (x : BitVec 64) : Nat := (List.range 64).countP x.getLsbD

namespace Privileges

def CREATE_TOKEN : Privileges := KACS_SE_CREATE_TOKEN_PRIVILEGE
def ASSIGN_PRIMARY_TOKEN : Privileges := KACS_SE_ASSIGN_PRIMARY_TOKEN_PRIVILEGE
def LOCK_MEMORY : Privileges := KACS_SE_LOCK_MEMORY_PRIVILEGE
def INCREASE_QUOTA : Privileges := KACS_SE_INCREASE_QUOTA_PRIVILEGE
def TCB : Privileges := KACS_SE_TCB_PRIVILEGE
def SECURITY : Privileges := KACS_SE_SECURITY_PRIVILEGE
def TAKE_OWNERSHIP : Privileges := KACS_SE_TAKE_OWNERSHIP_PRIVILEGE
def LOAD_DRIVER : Privileges := KACS_SE_LOAD_DRIVER_PRIVILEGE
def SYSTEM_PROFILE : Privileges := KACS_SE_SYSTEM_PROFILE_PRIVILEGE
def SYSTEMTIME : Privileges := KACS_SE_SYSTEMTIME_PRIVILEGE
def PROFILE_SINGLE_PROCESS : Privileges := KACS_SE_PROFILE_SINGLE_PROCESS_PRIVILEGE
def INCREASE_BASE_PRIORITY : Privileges := KACS_SE_INCREASE_BASE_PRIORITY_PRIVILEGE
def BACKUP : Privileges := KACS_SE_BACKUP_PRIVILEGE
def RESTORE : Privileges := KACS_SE_RESTORE_PRIVILEGE
def SHUTDOWN : Privileges := KACS_SE_SHUTDOWN_PRIVILEGE
def DEBUG : Privileges := KACS_SE_DEBUG_PRIVILEGE
def AUDIT : Privileges := KACS_SE_AUDIT_PRIVILEGE
def CHANGE_NOTIFY : Privileges := KACS_SE_CHANGE_NOTIFY_PRIVILEGE
def REMOTE_SHUTDOWN : Privileges := KACS_SE_REMOTE_SHUTDOWN_PRIVILEGE
def MANAGE_VOLUME : Privileges := KACS_SE_MANAGE_VOLUME_PRIVILEGE
def IMPERSONATE : Privileges := KACS_SE_IMPERSONATE_PRIVILEGE
def RELABEL : Privileges := KACS_SE_RELABEL_PRIVILEGE
def CREATE_SYMBOLIC_LINK : Privileges := KACS_SE_CREATE_SYMBOLIC_LINK_PRIVILEGE

/-- `NAMES`. -/
def NAMES : List (String × Privileges) :=
  [("SeCreateTokenPrivilege", CREATE_TOKEN),
    ("SeAssignPrimaryTokenPrivilege", ASSIGN_PRIMARY_TOKEN),
    ("SeLockMemoryPrivilege", LOCK_MEMORY),
    ("SeIncreaseQuotaPrivilege", INCREASE_QUOTA),
    ("SeTcbPrivilege", TCB),
    ("SeSecurityPrivilege", SECURITY),
    ("SeTakeOwnershipPrivilege", TAKE_OWNERSHIP),
    ("SeLoadDriverPrivilege", LOAD_DRIVER),
    ("SeSystemProfilePrivilege", SYSTEM_PROFILE),
    ("SeSystemtimePrivilege", SYSTEMTIME),
    ("SeProfileSingleProcessPrivilege", PROFILE_SINGLE_PROCESS),
    ("SeIncreaseBasePriorityPrivilege", INCREASE_BASE_PRIORITY),
    ("SeBackupPrivilege", BACKUP),
    ("SeRestorePrivilege", RESTORE),
    ("SeShutdownPrivilege", SHUTDOWN),
    ("SeDebugPrivilege", DEBUG),
    ("SeAuditPrivilege", AUDIT),
    ("SeChangeNotifyPrivilege", CHANGE_NOTIFY),
    ("SeRemoteShutdownPrivilege", REMOTE_SHUTDOWN),
    ("SeManageVolumePrivilege", MANAGE_VOLUME),
    ("SeImpersonatePrivilege", IMPERSONATE),
    ("SeRelabelPrivilege", RELABEL),
    ("SeCreateSymbolicLinkPrivilege", CREATE_SYMBOLIC_LINK)]

/-- `Privileges::contains`. -/
def contains (self other : Privileges) : Bool := self &&& other = other

/-- `Privileges::parse_name`. -/
def parseName (name : String) : Option Privileges :=
  (NAMES.find? fun entry => entry.1 = name).map Prod.snd

/-- `Privileges::canonical_name`. -/
def canonicalName (self : Privileges) : Option String :=
  if countOnes self ≠ 1 then none
  else (NAMES.find? fun entry => entry.2 = self).map Prod.fst

/-- `Privileges::canonical_names`. -/
def canonicalNames (self : Privileges) : List String :=
  (NAMES.filter fun entry => self.contains entry.2).map Prod.fst

end Privileges

end Peios.Security
