import CdcConnector.Decoder

/-!
# Relation messages

The zero search is the x86-64 branch: a 16-byte compare first, then 8-byte
little-endian words tested for a zero byte, the last window moved back into
the data. A relation keeps two lists derived from its fields, the key fields
and the positions of the key fields.
-/

set_option autoImplicit false

namespace CDC.RelationDecoder
open CDC.Fallible CDC.Event CDC.Decoder

def cmpeqZero (chunk : Bytes) : Bytes := chunk.map (fun b => if b = 0 then 0xff else 0)

def movemask : Bytes → ℕ
  | [] => 0
  | b::bs => (if 0x80 ≤ b then 1 else 0) + 2 * movemask bs

def trailingZeros : ℕ → ℕ → ℕ
  | 0, _ => 0
  | w+1, n => if n % 2 = 1 then 0 else trailingZeros w (n / 2) + 1

def zeroChunk (chunk : Bytes) : Option ℕ :=
  let mask := movemask (cmpeqZero chunk)
  if mask ≠ 0 then some (trailingZeros 32 mask) else none

def littleEndianWord (bytes : Bytes) : BitVec 64 :=
  BitVec.ofNat 64 (BigEndian.ofBytes bytes.reverse)

def zeroByteMask (word : BitVec 64) : BitVec 64 :=
  (word - 0x0101010101010101#64) &&& ~~~word &&& 0x8080808080808080#64

/-- The word loop; `i` is the position after the current window. -/
def findNullWords (data : Bytes) (i : ℕ) : Decoded (Option ℕ) :=
  if _h : i ≤ data.length + 7 then do
    let boundary := min i data.length
    let start ← subtract boundary 8
    let word ← slice data start boundary
    let mask := zeroByteMask (littleEndianWord word)
    if mask ≠ 0 then return some (start + trailingZeros 64 mask.toNat / 8)
    else findNullWords data (i + 8)
  else return none
termination_by data.length + 8 - i

def findNullWord (data : Bytes) : Decoded (Option ℕ) :=
  if data.length < 16 then
    return zeroChunk (data ++ List.replicate (16 - data.length) 0xff)
  else
    match zeroChunk (data.take 16) with
    | some i => return some i
    | none => findNullWords data 24

def asciiString (bytes : Bytes) : String :=
  String.ofList (bytes.map (fun b => Char.ofNat b.toNat))

def extractString (data : Bytes) : Decoded String := do
  match ← findNullWord data with
  | none => fail .truncatedInput
  | some nul =>
    let name ← slice data 0 nul
    if name.all (· < 0x80) then return asciiString name else fromUtf8 name

structure KeyField where
  name : String
  kind : FieldKind
  deriving DecidableEq, Repr

instance : FieldAccess KeyField := ⟨KeyField.name, KeyField.kind⟩

structure RelationData where
  inner : Relation
  keyFields : List KeyField
  keyIndexes : List ℕ
  deriving DecidableEq

inductive FieldParseResult where
  | physical (field : Field) (bytes : ℕ)
  | logical (bytes : ℕ)
  deriving DecidableEq

def byteSizeLen (strLen : ℕ) : ℕ := 10 + strLen

def kindFromOidMod (tOid _tMod : UInt32) : Decoded FieldKind :=
  if tOid = 16 then return .bool
  else if tOid = 20 then return .int8
  else if tOid = 23 then return .int4
  else if tOid = 25 then return .text
  else if tOid = 1114 then return .timestamp
  else fail (.invalidOid tOid)

def parsePhysical (data : Bytes) (isKey : Bool) (name : String) : Decoded FieldParseResult := do
  let afterName := 1 + name.utf8ByteSize + 1
  let tOid ← readU32 data afterName
  let tMod ← readU32 data (afterName + 4)
  let kind ← kindFromOidMod tOid tMod
  return .physical ⟨isKey, name, kind⟩ (byteSizeLen name.utf8ByteSize)

def parseField (data : Bytes) : Decoded FieldParseResult := do
  if data.length < 10 then fail .truncatedInput
  else
    let flag ← index data 0
    let rest ← sliceFrom data 1
    let name ← extractString rest
    if flag = 0 then parsePhysical data false name
    else if flag = 1 then parsePhysical data true name
    else if flag = 2 ∨ flag = 3 then return .logical (byteSizeLen name.utf8ByteSize)
    else fail (.wrongFieldDataFlag flag)

/-- The column loop: `n` columns are left, the next one starts at `pos`. -/
def parseFields (data : Bytes) : ℕ → ℕ → List Field → Decoded (List Field)
  | 0, _, fields => return fields
  | n+1, pos, fields => do
    let rest ← sliceFrom data pos
    match ← parseField rest with
    | .physical field bytes => parseFields data n (pos + bytes) (fields ++ [field])
    | .logical bytes => parseFields data n (pos + bytes) fields

def replicaKind (b : UInt8) : Decoded ReplicaKind :=
  if b = tagDefault then return .keys
  else if b = tagFull then return .row
  else fail (.wrongReplicaId b)

def keyFields (fields : List Field) : List KeyField :=
  fields.filterMap (fun f => if f.isKey then some ⟨f.name, f.kind⟩ else none)

def keyIndexes (fields : List Field) : List ℕ :=
  fields.zipIdx.filterMap (fun (f, i) => if f.isKey then some i else none)

def parse (data : Bytes) : Decoded RelationData := do
  if data.length < 10 then fail .truncatedInput
  else
    let relationOid ← readU32 data 1
    let afterOid ← sliceFrom data 5
    let nspace ← extractString afterOid
    let afterNamespace ← sliceFrom data (5 + nspace.utf8ByteSize + 1)
    let relname ← extractString afterNamespace
    if data.length < 5 + nspace.utf8ByteSize + 1 + relname.utf8ByteSize + 3 then
      fail .truncatedInput
    else
      let replicaIdPos := 5 + nspace.utf8ByteSize + 1 + relname.utf8ByteSize + 1
      let replicaId ← replicaKind (← index data replicaIdPos)
      let cols ← readU16 data (replicaIdPos + 1)
      let fields ← parseFields data cols (replicaIdPos + 3) []
      return ⟨⟨relationOid, relname, nspace, fields, replicaId⟩, keyFields fields, keyIndexes fields⟩

theorem parseFields_length (data : Bytes) (n pos : ℕ) (acc fields : List Field)
    (h : parseFields data n pos acc = .ok fields) : fields.length ≤ acc.length + n := by
  induction n generalizing pos acc with
  | zero =>
    simp only [parseFields, pure_ok, Except.ok.injEq] at h
    simp [h]
  | succ n ih =>
    simp only [parseFields, bind_ok_iff] at h
    obtain ⟨rest, _, result, _, hr⟩ := h
    cases result with
    | physical field bytes =>
      have := ih _ _ hr
      simp only [List.length_append, List.length_singleton] at this
      omega
    | logical bytes =>
      have := ih _ _ hr
      omega

theorem readU16_lt (data : Bytes) (pos n : ℕ) (h : readU16 data pos = .ok n) : n < 2^16 := by
  rw [readU16, bind_ok_iff] at h
  obtain ⟨bytes, hs, hn⟩ := h
  have hlen : bytes.length = 2 := by simpa using slice_length _ _ _ _ hs
  have hlt := BigEndian.ofBytes_lt bytes
  rw [hlen] at hlt
  simp only [pure_ok, Except.ok.injEq] at hn
  omega

/-- What the decoder guarantees of every relation it builds: the two key
lists are derived from the fields, and the fields are counted by a u16. -/
structure Built (rd : RelationData) : Prop where
  keyFields_eq : rd.keyFields = keyFields rd.inner.fields
  keyIndexes_eq : rd.keyIndexes = keyIndexes rd.inner.fields
  fields_lt : rd.inner.fields.length < 2^16

theorem parse_built (data : Bytes) (rd : RelationData) (h : parse data = .ok rd) : Built rd := by
  unfold parse at h
  split_ifs at h with hlen
  · cases h
  simp only [bind_ok_iff] at h
  obtain ⟨oid, _, afterOid, _, nspace, _, afterNamespace, _, relname, _, h⟩ := h
  split_ifs at h with hmin
  · cases h
  simp only [bind_ok_iff] at h
  obtain ⟨b, _, replicaId, _, cols, hcols, fields, hfields, h⟩ := h
  simp only [pure_ok, Except.ok.injEq] at h
  subst h
  have hlt := readU16_lt _ _ _ hcols
  have hle := parseFields_length _ _ _ _ _ hfields
  simp only [List.length_nil] at hle
  exact ⟨rfl, rfl, by simp only; omega⟩

example : parse [0x52, 0,0,0,1, 0x70,0, 0x75,0, 0x64, 0,1, 1, 0x69,0x64,0, 0,0,0,23, 0,0,0,0] =
    .ok ⟨⟨1, "u", "p", [⟨true, "id", .int4⟩], .keys⟩, [⟨"id", .int4⟩], [0]⟩ := by decide

end CDC.RelationDecoder
