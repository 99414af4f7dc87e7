import CdcConnector.BigEndian
import CdcConnector.Event

/-!
# Errors and primitive reads of the WAL decoders

Every read goes through a checked slice, so that a missing length check
shows as a panic. UTF-8 validation is Lean's own. The message tags are the
ASCII bytes of the logical replication protocol.
-/

set_option autoImplicit false

namespace CDC.Decoder
open CDC.Fallible CDC.Event

inductive DecoderError where
  | wrongOldTupleKey (b : UInt8)
  | wrongColTypeKey (b : UInt8)
  | wrongNewTupleKey (b : UInt8)
  | wrongFieldDataFlag (b : UInt8)
  | invalidOid (oid : Oid)
  | truncatedInput
  | corruptedInput
  | nonUtf8Simd
  | unknownRelation (oid : Oid)
  | wrongFieldKind (kind : FieldKind)
  | wrongReplicaId (b : UInt8)
  | wrongOldTupleKind (kind : ReplicaKind)
  | toastedValueOnNonUpdate
  deriving DecidableEq, Repr

abbrev Decoded (α : Type) := Outcome DecoderError α

abbrev tagR : UInt8 := 0x52
abbrev tagI : UInt8 := 0x49
abbrev tagU : UInt8 := 0x55
abbrev tagD : UInt8 := 0x44
abbrev tagK : UInt8 := 0x4b
abbrev tagO : UInt8 := 0x4f
abbrev tagN : UInt8 := 0x4e
abbrev tagNull : UInt8 := 0x6e
abbrev tagToasted : UInt8 := 0x75
abbrev tagText : UInt8 := 0x74
abbrev tagBinary : UInt8 := 0x62
abbrev tagDefault : UInt8 := 0x64
abbrev tagFull : UInt8 := 0x66

def readU16 (data : Bytes) (pos : ℕ) : Decoded ℕ := do
  let bytes ← slice data pos (pos + 2)
  return BigEndian.ofBytes bytes

def readU32 (data : Bytes) (pos : ℕ) : Decoded UInt32 := do
  let bytes ← slice data pos (pos + 4)
  return UInt32.ofNat (BigEndian.ofBytes bytes)

def readU64 (data : Bytes) (pos : ℕ) : Decoded UInt64 := do
  let bytes ← slice data pos (pos + 8)
  return UInt64.ofNat (BigEndian.ofBytes bytes)

def utf8Bytes (s : String) : Bytes := s.toByteArray.data.toList

def fromUtf8 (bytes : Bytes) : Decoded String :=
  match String.fromUTF8? ⟨bytes.toArray⟩ with
  | some s => .ok s
  | none => fail .nonUtf8Simd

@[simp] theorem fromUtf8_utf8Bytes (s : String) : fromUtf8 (utf8Bytes s) = .ok s := by
  have hb : (⟨(utf8Bytes s).toArray⟩ : ByteArray) = s.toByteArray := rfl
  simp [fromUtf8, hb, String.fromUTF8?, s.isValidUTF8, String.fromUTF8]

theorem readU16_at (pre post : Bytes) (n : ℕ) (h : n < 2^16) (pos : ℕ) (hp : pos = pre.length) :
    readU16 (pre ++ (BigEndian.toBytes 2 n ++ post)) pos = .ok n := by
  subst hp
  rw [readU16, slice_middle _ _ _ _ (by simp)]
  simp [BigEndian.ofBytes_toBytes 2 n (by simpa using h)]

theorem readU32_at (pre post : Bytes) (x : UInt32) (pos : ℕ) (hp : pos = pre.length) :
    readU32 (pre ++ (BigEndian.toBytes 4 x.toNat ++ post)) pos = .ok x := by
  subst hp
  rw [readU32, slice_middle _ _ _ _ (by simp)]
  simp [BigEndian.ofBytes_toBytes 4 x.toNat (by simpa using x.toNat_lt)]

theorem readU16_shift (pre data : Bytes) (pos : ℕ) :
    readU16 (pre ++ data) (pre.length + pos) = readU16 data pos := by
  rw [readU16, Nat.add_assoc, slice_shift, readU16]

theorem readU32_shift (pre data : Bytes) (pos : ℕ) :
    readU32 (pre ++ data) (pre.length + pos) = readU32 data pos := by
  rw [readU32, Nat.add_assoc, slice_shift, readU32]

end CDC.Decoder
