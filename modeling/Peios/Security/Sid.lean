import Peios.Interaction.Prog
import Peios.Slice

/-!
# Security identifiers

`Sid` and `SidRef` (`peios/src/security/sid.rs`).  `SidLib` is what they take from libpeios: which
bytes are a SID, and the size of a buffer that holds any.
-/

namespace Peios.Security

open Interaction

/-- What the crate takes from libpeios. -/
structure SidLib where
  /-- `PEIOS_SID_MAX_BYTES`. -/
  maxBytes : Nat
  /-- `peios_sid_valid`. -/
  valid : Bytes → Bool
  /-- A buffer of that size holds any SID. -/
  length_le : ∀ b, valid b = true → b.length ≤ maxBytes
  /-- A SID's length fits a `u8`. -/
  maxBytes_lt : maxBytes < 2 ^ 8

variable (lib : SidLib)

/-- A borrowed SID: bytes that have been validated. -/
structure SidRef where
  bytes : Bytes
  valid : lib.valid bytes = true
  deriving DecidableEq

/-- An owned SID: a buffer, and how much of it is the SID. -/
structure Sid where
  buf : Bytes
  len : UInt8
  deriving DecidableEq

/-- `Sid::MAX_LEN`. -/
def Sid.MAX_LEN : Nat := lib.maxBytes

/-- The bytes of a SID: `buf[..len]`. -/
def Sid.asBytes (sid : Sid) : Bytes := sid.buf.take sid.len.toNat

/-- `SidRef::from_bytes`. -/
def SidRef.fromBytes (bytes : Bytes) : Option (SidRef lib) :=
  if h : lib.valid bytes = true then some ⟨bytes, h⟩ else none

/-- `Sid::from_encoded`, with its `debug_assert!`. -/
def Sid.fromEncoded (buf : Bytes) (len : Nat) : Outcome Sid :=
  if len ≤ Sid.MAX_LEN lib then pure { buf, len := .ofNat len } else throw .panic

variable {lib}

/-- `Sid::from_ref`, which panics when the SID does not fit its buffer. -/
def Sid.fromRef (sid : SidRef lib) : Outcome Sid :=
  if sid.bytes.length ≤ Sid.MAX_LEN lib then
    pure
      { buf := sid.bytes ++ List.replicate (Sid.MAX_LEN lib - sid.bytes.length) 0
        len := .ofNat sid.bytes.length }
  else throw .panic

/-- A call of libpeios that builds a SID. -/
inductive SidCall where
  /-- `peios_sid_build`, with a buffer of `cap` bytes and the sub-authorities it is told of. -/
  | build (cap : Nat) (idAuthority : UInt64) (subAuths : List UInt32)
  deriving DecidableEq

/-- What it returns: the SID's length, and the buffer. -/
abbrev SidReply (_ : SidCall) : Type := Except Errno (Nat × Bytes)

variable (lib)

/-- `Sid::build`. -/
def Sid.build (idAuthority : UInt64) (subAuths : List UInt32) :
    ExceptT Fault (Prog SidCall SidReply) Sid :=
  ExceptT.mk do
    let r : Except Errno (Nat × Bytes) ←
      .lift (.build (Sid.MAX_LEN lib) idAuthority (entriesU32 subAuths))
    return do
      let (n, buf) ← ofResult r
      Sid.fromEncoded lib buf n

/-! ### Owned and borrowed SIDs -/

variable {lib}

theorem SidRef.fromBytes_eq_some {b : Bytes} {sid : SidRef lib} :
    SidRef.fromBytes lib b = some sid ↔ sid.bytes = b := by
  unfold SidRef.fromBytes
  constructor
  · intro h
    split_ifs at h
    obtain rfl := Option.some.inj h
    rfl
  · rintro rfl
    rw [dif_pos sid.valid]

/-- Copying a borrowed SID succeeds, and keeps its bytes. -/
theorem Sid.fromRef_spec (sid : SidRef lib) :
    ∃ owned, Sid.fromRef sid = .ok owned ∧ owned.asBytes = sid.bytes := by
  have hle : sid.bytes.length ≤ lib.maxBytes := lib.length_le _ sid.valid
  have hlen : (UInt8.ofNat sid.bytes.length).toNat = sid.bytes.length :=
    UInt8.toNat_ofNat_of_lt' (lt_of_le_of_lt hle lib.maxBytes_lt)
  unfold Sid.fromRef
  rw [if_pos (show sid.bytes.length ≤ Sid.MAX_LEN lib from hle)]
  refine ⟨_, rfl, ?_⟩
  unfold Sid.asBytes
  dsimp only
  rw [hlen, List.take_left' rfl]

end Peios.Security
