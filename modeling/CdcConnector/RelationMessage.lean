import CdcConnector.KeyTuple
import CdcConnector.ZeroSearch

/-!
# Relation messages as the server writes them

Names are zero-terminated; every column takes ten bytes besides its name,
also a logical one, which joins no list. A written message decodes to its
relation, and the two key lists point into the filtered fields.
-/

set_option autoImplicit false

namespace CDC.RelationMessage
open CDC.Fallible CDC.Event CDC.Decoder CDC.RelationDecoder CDC.KeyTuple CDC.ZeroSearch
open CDC.TupleSyntax

theorem utf8Bytes_ofList (cs : List Char) :
    utf8Bytes (String.ofList cs) = cs.flatMap String.utf8EncodeChar := by
  simp [utf8Bytes, String.toByteArray_ofList, List.utf8Encode]

theorem utf8Bytes_length (s : String) : (utf8Bytes s).length = s.utf8ByteSize := by
  simp [utf8Bytes, ← String.size_toByteArray]

theorem utf8Bytes_inj (s t : String) (h : utf8Bytes s = utf8Bytes t) : s = t := by
  have hs := fromUtf8_utf8Bytes s
  rw [h, fromUtf8_utf8Bytes, Except.ok.injEq] at hs
  exact hs.symm

theorem utf8Encode_ascii (b : UInt8) (h : b < 0x80) :
    String.utf8EncodeChar (Char.ofNat b.toNat) = [b] := by
  have hall : ∀ n < 128, String.utf8EncodeChar (Char.ofNat n) = [UInt8.ofNat n] := by decide +kernel
  rw [hall b.toNat h, UInt8.ofNat_toNat]

theorem encode_ascii (bs : Bytes) (h : ∀ b ∈ bs, b < 0x80) :
    bs.flatMap (fun b => String.utf8EncodeChar (Char.ofNat b.toNat)) = bs := by
  induction bs with
  | nil => rfl
  | cons b bs ih =>
    rw [List.flatMap_cons, utf8Encode_ascii b (h b (by simp)),
      ih (fun x hx => h x (List.mem_cons_of_mem b hx)), List.singleton_append]

theorem asciiString_eq (s : String) (h : (utf8Bytes s).all (· < 0x80) = true) :
    asciiString (utf8Bytes s) = s := by
  apply utf8Bytes_inj
  rw [asciiString, utf8Bytes_ofList, List.flatMap_map, encode_ascii]
  intro b hb
  simpa using List.all_eq_true.mp h b hb

theorem extractString_terminated (s : String) (rest : Bytes) (h : (0 : UInt8) ∉ utf8Bytes s) :
    extractString (utf8Bytes s ++ 0 :: rest) = .ok s := by
  have hslice : (slice (utf8Bytes s ++ 0 :: rest) 0 (utf8Bytes s).length : Decoded Bytes) =
      .ok (utf8Bytes s) := by
    simpa using slice_middle (ε := DecoderError) [] (utf8Bytes s) (0 :: rest) _ (by simp)
  simp only [extractString, findNullWord_scan, ok_bind, scan_terminated _ _ h, hslice]
  by_cases hascii : (utf8Bytes s).all (· < 0x80) = true
  · rw [if_pos hascii, asciiString_eq s hascii, pure_ok]
  · rw [if_neg hascii, fromUtf8_utf8Bytes]

theorem extractString_ok_iff (data : Bytes) (s : String) :
    extractString data = .ok s ↔
      (0 : UInt8) ∉ utf8Bytes s ∧ ∃ rest, data = utf8Bytes s ++ 0 :: rest := by
  constructor
  · intro h
    rw [extractString, findNullWord_scan, ok_bind] at h
    cases hscan : scan data with
    | none =>
      rw [hscan] at h
      cases h
    | some k =>
      obtain ⟨name, rest, rfl, hname, rfl⟩ := scan_split data k hscan
      have hslice := slice_middle (ε := DecoderError) [] name (0 :: rest) name.length (by simp)
      simp only [List.nil_append, List.length_nil] at hslice
      simp only [hscan, hslice, ok_bind] at h
      have hs : name = utf8Bytes s := by
        by_cases hascii : name.all (· < 0x80) = true
        · rw [if_pos hascii, pure_ok, Except.ok.injEq] at h
          have hall : ∀ b ∈ name, b < 0x80 := by simpa using hascii
          rw [← h, asciiString, utf8Bytes_ofList, List.flatMap_map, encode_ascii name hall]
        · rw [if_neg hascii] at h
          exact (fromUtf8_ok_iff name s).mp h
      subst hs
      exact ⟨hname, rest, rfl⟩
  · rintro ⟨hs, rest, rfl⟩
    exact extractString_terminated s rest hs

/-- A column as written: the flag says whether it is a key, or logical. -/
structure Column where
  flag : UInt8
  name : String
  typeOid : UInt32
  modifier : UInt32
  deriving DecidableEq

namespace Column

def bytes (c : Column) : Bytes :=
  c.flag :: (utf8Bytes c.name ++ 0 :: (BigEndian.toBytes 4 c.typeOid.toNat ++
    BigEndian.toBytes 4 c.modifier.toNat))

def kind (c : Column) : Option FieldKind :=
  if c.typeOid = 16 then some .bool
  else if c.typeOid = 20 then some .int8
  else if c.typeOid = 23 then some .int4
  else if c.typeOid = 25 then some .text
  else if c.typeOid = 1114 then some .timestamp
  else none

def field (c : Column) : Option Field :=
  if c.flag ≤ 1 then c.kind.map (fun kind => ⟨c.flag = 1, c.name, kind⟩) else none

structure WellFormed (c : Column) : Prop where
  flag_le : c.flag ≤ 3
  name_zero_free : (0 : UInt8) ∉ utf8Bytes c.name
  supported : c.flag ≤ 1 → c.kind.isSome = true

theorem bytes_length (c : Column) : c.bytes.length = byteSizeLen c.name.utf8ByteSize := by
  simp [bytes, utf8Bytes_length, byteSizeLen]
  omega

end Column

theorem kind_of_column (c : Column) (kind : FieldKind) (h : c.kind = some kind) (tMod : UInt32) :
    kindFromOidMod c.typeOid tMod = .ok kind := by
  unfold Column.kind at h
  unfold kindFromOidMod
  split_ifs at h ⊢ <;> cases h <;> rfl

theorem column_numbers (c : Column) (rest : Bytes) :
    readU32 (c.bytes ++ rest) (1 + c.name.utf8ByteSize + 1) = .ok c.typeOid ∧
      readU32 (c.bytes ++ rest) (1 + c.name.utf8ByteSize + 1 + 4) = .ok c.modifier := by
  have hhead : 1 + c.name.utf8ByteSize + 1 = (c.flag :: (utf8Bytes c.name ++ [0])).length := by
    simp [utf8Bytes_length]
    omega
  have hsplit : c.bytes ++ rest = (c.flag :: (utf8Bytes c.name ++ [0])) ++
      (BigEndian.toBytes 4 c.typeOid.toNat ++ (BigEndian.toBytes 4 c.modifier.toNat ++ rest)) := by
    simp [Column.bytes]
  constructor
  · rw [hsplit]
    exact readU32_at _ _ _ _ hhead
  · have hmod := readU32_at ((c.flag :: (utf8Bytes c.name ++ [0])) ++
      BigEndian.toBytes 4 c.typeOid.toNat) rest c.modifier (1 + c.name.utf8ByteSize + 1 + 4)
      (by rw [hhead, List.length_append, BigEndian.toBytes_length])
    rwa [List.append_assoc, ← hsplit] at hmod

theorem flag_cases (b : UInt8) (h : b ≤ 3) : b = 0 ∨ b = 1 ∨ b = 2 ∨ b = 3 := by
  have hle : b.toNat ≤ 3 := h
  simp only [← UInt8.toNat_inj, UInt8.toNat_ofNat]
  omega

def Column.result (c : Column) : FieldParseResult :=
  match c.field with
  | some field => .physical field (byteSizeLen c.name.utf8ByteSize)
  | none => .logical (byteSizeLen c.name.utf8ByteSize)

theorem parseField_column (c : Column) (hc : c.WellFormed) (rest : Bytes) :
    parseField (c.bytes ++ rest) = .ok c.result := by
  have hmin : ¬ (c.bytes ++ rest).length < 10 := by
    rw [List.length_append, c.bytes_length, byteSizeLen]
    omega
  have hflag : (index (c.bytes ++ rest) 0 : Decoded UInt8) = .ok c.flag := rfl
  have htail : (sliceFrom (c.bytes ++ rest) 1 : Decoded Bytes) =
      .ok (utf8Bytes c.name ++ 0 :: (BigEndian.toBytes 4 c.typeOid.toNat ++
        BigEndian.toBytes 4 c.modifier.toNat ++ rest)) := by
    have h := sliceFrom_append (ε := DecoderError) [c.flag] ((utf8Bytes c.name ++
      0 :: (BigEndian.toBytes 4 c.typeOid.toNat ++ BigEndian.toBytes 4 c.modifier.toNat)) ++ rest)
    simpa [Column.bytes] using h
  have hname := extractString_terminated c.name (BigEndian.toBytes 4 c.typeOid.toNat ++
    BigEndian.toBytes 4 c.modifier.toNat ++ rest) hc.name_zero_free
  obtain ⟨hoid, hmod⟩ := column_numbers c rest
  have hphysical : c.flag ≤ 1 → ∃ kind, c.kind = some kind ∧
      ∀ isKey, parsePhysical (c.bytes ++ rest) isKey c.name =
        .ok (.physical ⟨isKey, c.name, kind⟩ (byteSizeLen c.name.utf8ByteSize)) := by
    intro hle
    obtain ⟨kind, hkind⟩ := Option.isSome_iff_exists.mp (hc.supported hle)
    refine ⟨kind, hkind, fun isKey => ?_⟩
    simp only [parsePhysical, hoid, hmod, ok_bind, kind_of_column c kind hkind, pure_ok]
  simp only [parseField, hmin, if_false, hflag, htail, hname, ok_bind]
  rcases flag_cases c.flag hc.flag_le with h | h | h | h
  · obtain ⟨kind, hkind, hp⟩ := hphysical (by rw [h]; decide)
    rw [if_pos h, hp, Column.result, Column.field, if_pos (by rw [h]; decide), hkind, h]
    rfl
  · obtain ⟨kind, hkind, hp⟩ := hphysical (by rw [h]; decide)
    rw [if_neg (by rw [h]; decide), if_pos h, hp, Column.result, Column.field,
      if_pos (by rw [h]; decide), hkind, h]
    rfl
  · rw [if_neg (by rw [h]; decide), if_neg (by rw [h]; decide), if_pos (Or.inl h), Column.result,
      Column.field, if_neg (by rw [h]; decide), pure_ok]
  · rw [if_neg (by rw [h]; decide), if_neg (by rw [h]; decide), if_pos (Or.inr h), Column.result,
      Column.field, if_neg (by rw [h]; decide), pure_ok]

theorem parseFields_columns (columns : List Column) (hcolumns : ∀ c ∈ columns, c.WellFormed)
    (rest pre : Bytes) (acc : List Field) :
    parseFields (pre ++ (columns.flatMap Column.bytes ++ rest)) columns.length pre.length acc =
      .ok (acc ++ columns.filterMap Column.field) := by
  induction columns generalizing pre acc with
  | nil => simp [parseFields]
  | cons c columns ih =>
    have hrest : pre ++ ((c::columns).flatMap Column.bytes ++ rest) =
        (pre ++ c.bytes) ++ (columns.flatMap Column.bytes ++ rest) := by simp
    have htail : (sliceFrom (pre ++ ((c::columns).flatMap Column.bytes ++ rest)) pre.length :
        Decoded Bytes) = .ok (c.bytes ++ (columns.flatMap Column.bytes ++ rest)) := by
      rw [hrest, List.append_assoc]
      exact sliceFrom_append _ _
    have hnext := ih (fun x hx => hcolumns x (List.mem_cons_of_mem c hx)) (pre ++ c.bytes)
    have hlen : pre.length + byteSizeLen c.name.utf8ByteSize = (pre ++ c.bytes).length := by
      rw [List.length_append, c.bytes_length]
    simp only [List.length_cons, parseFields, htail, ok_bind,
      parseField_column c (hcolumns c (by simp)), Column.result]
    cases hfield : c.field with
    | some field =>
      simp only [hlen]
      rw [hrest, hnext, List.filterMap_cons_some hfield, List.append_assoc, List.singleton_append]
    | none =>
      simp only [hlen]
      rw [hrest, hnext, List.filterMap_cons_none hfield]

def replicaByte : ReplicaKind → UInt8
  | .keys => tagDefault
  | .row => tagFull

def relationBytes (oid : Oid) (nspace name : String) (replica : ReplicaKind)
    (columns : List Column) : Bytes :=
  tagR :: (BigEndian.toBytes 4 oid.toNat ++ (utf8Bytes nspace ++ 0 :: (utf8Bytes name ++
    0 :: replicaByte replica :: (BigEndian.toBytes 2 columns.length ++
      columns.flatMap Column.bytes))))

theorem replicaKind_byte (replica : ReplicaKind) : replicaKind (replicaByte replica) = .ok replica := by
  cases replica <;> rfl

theorem parseFields_shift (pre data : Bytes) (n pos : ℕ) (acc : List Field) :
    parseFields (pre ++ data) n (pre.length + pos) acc = parseFields data n pos acc := by
  induction n generalizing pos acc with
  | zero => rfl
  | succ n ih => simp only [parseFields, sliceFrom_shift, Nat.add_assoc, ih]

theorem parse_header (tag : UInt8) (oid tail : Bytes) (nspace name : String) (hoid : oid.length = 4)
    (hnspace : (0 : UInt8) ∉ utf8Bytes nspace) (hname : (0 : UInt8) ∉ utf8Bytes name)
    (hmin : 10 ≤ (tag :: (oid ++ (utf8Bytes nspace ++ 0 :: (utf8Bytes name ++ 0 :: tail)))).length) :
    RelationDecoder.parse (tag :: (oid ++ (utf8Bytes nspace ++ 0 :: (utf8Bytes name ++ 0 :: tail)))) =
      if tail.length < 2 then fail .truncatedInput
      else (do
        let replicaId ← replicaKind (← index tail 0)
        let cols ← readU16 tail 1
        let fields ← parseFields tail cols 3 []
        return ⟨⟨UInt32.ofNat (BigEndian.ofBytes oid), name, nspace, fields, replicaId⟩,
          keyFields fields, keyIndexes fields⟩) := by
  generalize hmsg : tag :: (oid ++ (utf8Bytes nspace ++ 0 :: (utf8Bytes name ++ 0 :: tail))) = msg
    at hmin ⊢
  -- the message up to its first name, up to its second, and up to its tail
  have hnspaceLen : (tag :: oid).length = 5 := by simp [hoid]
  have hnameLen : ((tag :: oid) ++ (utf8Bytes nspace ++ [0])).length =
      5 + nspace.utf8ByteSize + 1 := by
    rw [List.length_append, hnspaceLen, List.length_append, utf8Bytes_length, List.length_singleton,
      Nat.add_assoc]
  have htailLen : (((tag :: oid) ++ (utf8Bytes nspace ++ [0])) ++ (utf8Bytes name ++ [0])).length =
      5 + nspace.utf8ByteSize + 1 + name.utf8ByteSize + 1 := by
    rw [List.length_append, hnameLen, List.length_append, utf8Bytes_length, List.length_singleton]
    omega
  have hnameMsg : msg = ((tag :: oid) ++ (utf8Bytes nspace ++ [0])) ++
      (utf8Bytes name ++ 0 :: tail) := by simp [← hmsg]
  have htailMsg : msg = (((tag :: oid) ++ (utf8Bytes nspace ++ [0])) ++ (utf8Bytes name ++ [0])) ++
      tail := by simp [← hmsg]
  have hoid : readU32 msg 1 = .ok (UInt32.ofNat (BigEndian.ofBytes oid)) := by
    obtain ⟨x, hx, hn⟩ := readU32_after_tag tag oid
      (utf8Bytes nspace ++ 0 :: (utf8Bytes name ++ 0 :: tail)) hoid
    rw [← hmsg, hx, ← hn, UInt32.ofNat_toNat]
  have hafterOid : (sliceFrom msg 5 : Decoded Bytes) =
      .ok (utf8Bytes nspace ++ 0 :: (utf8Bytes name ++ 0 :: tail)) := by
    rw [← hmsg, ← hnspaceLen]
    exact sliceFrom_append (tag :: oid) _
  have hafterName : (sliceFrom msg (5 + nspace.utf8ByteSize + 1) : Decoded Bytes) =
      .ok (utf8Bytes name ++ 0 :: tail) := by
    rw [hnameMsg, ← hnameLen, sliceFrom_append]
  generalize ((tag :: oid) ++ (utf8Bytes nspace ++ [0])) ++ (utf8Bytes name ++ [0]) = upToTail
    at htailLen htailMsg
  have hmax : msg.length < 5 + nspace.utf8ByteSize + 1 + name.utf8ByteSize + 3 ↔ tail.length < 2 := by
    rw [htailMsg, List.length_append, htailLen]
    omega
  have hreplica : (index msg (5 + nspace.utf8ByteSize + 1 + name.utf8ByteSize + 1) :
      Decoded UInt8) = index tail 0 := by
    rw [htailMsg, ← htailLen]
    exact index_shift upToTail tail 0
  have hcols : readU16 msg (5 + nspace.utf8ByteSize + 1 + name.utf8ByteSize + 1 + 1) =
      readU16 tail 1 := by
    rw [htailMsg, ← htailLen, readU16_shift]
  have hfields : ∀ cols, parseFields msg cols
      (5 + nspace.utf8ByteSize + 1 + name.utf8ByteSize + 1 + 3) [] = parseFields tail cols 3 [] := by
    intro cols
    rw [htailMsg, ← htailLen, parseFields_shift]
  have hmin : ¬ msg.length < 10 := by omega
  rw [RelationDecoder.parse, if_neg hmin, hoid, ok_bind, hafterOid, ok_bind,
    extractString_terminated nspace _ hnspace, ok_bind, hafterName, ok_bind,
    extractString_terminated name _ hname, ok_bind]
  simp only [hmax, hreplica, hcols, hfields]

theorem parse_relation (oid : Oid) (nspace name : String) (replica : ReplicaKind)
    (columns : List Column) (rest : Bytes) (hnspace : (0 : UInt8) ∉ utf8Bytes nspace)
    (hname : (0 : UInt8) ∉ utf8Bytes name) (hcount : columns.length < 2^16)
    (hcolumns : ∀ c ∈ columns, c.WellFormed) :
    RelationDecoder.parse (relationBytes oid nspace name replica columns ++ rest) =
      .ok ⟨⟨oid, name, nspace, columns.filterMap Column.field, replica⟩,
        keyFields (columns.filterMap Column.field), keyIndexes (columns.filterMap Column.field)⟩ := by
  have hmsg : relationBytes oid nspace name replica columns ++ rest =
      tagR :: (BigEndian.toBytes 4 oid.toNat ++ (utf8Bytes nspace ++ 0 :: (utf8Bytes name ++
        0 :: (replicaByte replica :: (BigEndian.toBytes 2 columns.length ++
          (columns.flatMap Column.bytes ++ rest)))))) := by
    simp [relationBytes]
  have hreplica : (index (replicaByte replica :: (BigEndian.toBytes 2 columns.length ++
      (columns.flatMap Column.bytes ++ rest))) 0 : Decoded UInt8) = .ok (replicaByte replica) := rfl
  have hcols := readU16_at [replicaByte replica] (columns.flatMap Column.bytes ++ rest)
    columns.length hcount 1 rfl
  have hfields := parseFields_columns columns hcolumns rest
    (replicaByte replica :: BigEndian.toBytes 2 columns.length) []
  have hoid : UInt32.ofNat (BigEndian.ofBytes (BigEndian.toBytes 4 oid.toNat)) = oid := by
    rw [BigEndian.ofBytes_toBytes 4 oid.toNat (by simpa using oid.toNat_lt), UInt32.ofNat_toNat]
  rw [List.singleton_append] at hcols
  rw [List.length_cons, BigEndian.toBytes_length, List.nil_append, List.cons_append] at hfields
  have hlong : 3 ≤ (replicaByte replica :: (BigEndian.toBytes 2 columns.length ++
      (columns.flatMap Column.bytes ++ rest))).length := by
    simp only [List.length_cons, List.length_append, BigEndian.toBytes_length]
    omega
  have hmin : ∀ tail : Bytes, 3 ≤ tail.length →
      10 ≤ (tagR :: (BigEndian.toBytes 4 oid.toNat ++ (utf8Bytes nspace ++
        0 :: (utf8Bytes name ++ 0 :: tail)))).length := by
    intro tail htail
    simp only [List.length_cons, List.length_append, BigEndian.toBytes_length]
    omega
  rw [hmsg, parse_header tagR _ _ nspace name (BigEndian.toBytes_length 4 _) hnspace hname
    (hmin _ hlong), if_neg (by omega), hreplica, ok_bind, replicaKind_byte, ok_bind, hcols, ok_bind,
    hfields, ok_bind, hoid, pure_ok]

theorem mem_keyIndexes (fields : List Field) (i : ℕ) :
    i ∈ keyIndexes fields ↔ ∃ f, fields[i]? = some f ∧ f.isKey = true := by
  rw [keyIndexes, List.mem_filterMap]
  constructor
  · rintro ⟨⟨f, j⟩, hmem, hf⟩
    dsimp only at hf
    split_ifs at hf with hkey
    cases hf
    exact ⟨f, List.mem_zipIdx_iff_getElem?.mp hmem, hkey⟩
  · rintro ⟨f, hf, hkey⟩
    exact ⟨(f, i), List.mem_zipIdx_iff_getElem?.mpr hf, by simp [hkey]⟩

theorem keyFields_get (fields : List Field) (j i : ℕ) (h : (keyIndexes fields)[j]? = some i) :
    ∃ f, fields[i]? = some f ∧ (keyFields fields)[j]? = some ⟨f.name, f.kind⟩ := by
  have hmem : i ∈ keyIndexes fields := List.mem_iff_getElem?.mpr ⟨j, h⟩
  obtain ⟨f, hf, _⟩ := (mem_keyIndexes fields i).mp hmem
  have hget := keyPart_get fields 0 fields (by omega) j
  rw [List.drop_zero, show keyIndexesFrom 0 fields = keyIndexes fields from rfl, h,
    Option.bind_some, hf] at hget
  exact ⟨f, hf, by rw [keyFields_eq, List.getElem?_map, hget, Option.map_some]⟩

/-- Every written message, whatever follows it, decodes to its relation; the
key indexes are the increasing positions of the key fields, and the key fields
line up with them. -/
theorem relation_message_exact (oid : Oid) (nspace name : String) (replica : ReplicaKind)
    (columns : List Column) (rest : Bytes) (hnspace : (0 : UInt8) ∉ utf8Bytes nspace)
    (hname : (0 : UInt8) ∉ utf8Bytes name) (hcount : columns.length ≤ 65535)
    (hcolumns : ∀ c ∈ columns, c.WellFormed) :
    ∃ rd, RelationDecoder.parse (relationBytes oid nspace name replica columns ++ rest) = .ok rd ∧
      rd.inner = ⟨oid, name, nspace, columns.filterMap Column.field, replica⟩ ∧
      rd.keyIndexes.Pairwise (· < ·) ∧
      (∀ i : ℕ, i ∈ rd.keyIndexes ↔ ∃ f, rd.inner.fields[i]? = some f ∧ f.isKey = true) ∧
      rd.keyFields.length = rd.keyIndexes.length ∧
      ∀ j i : ℕ, rd.keyIndexes[j]? = some i →
        ∃ f, rd.inner.fields[i]? = some f ∧ rd.keyFields[j]? = some ⟨f.name, f.kind⟩ :=
  ⟨_, parse_relation oid nspace name replica columns rest hnspace hname (by omega) hcolumns, rfl,
    keyIndexesFrom_sorted 0 _, mem_keyIndexes _, keyFields_length 0 _, keyFields_get _⟩

def threeColumns : List Column :=
  [⟨1, "id", 23, 0⟩, ⟨2, "gen", 17, 0⟩, ⟨0, "año", 25, 0⟩]

theorem threeColumns_wellFormed : ∀ c ∈ threeColumns, c.WellFormed := by
  intro c hc
  simp only [threeColumns, List.mem_cons, List.not_mem_nil, or_false] at hc
  rcases hc with rfl | rfl | rfl
  · exact ⟨by decide, by decide, fun _ => rfl⟩
  · exact ⟨by decide, by decide, fun h => absurd h (by decide)⟩
  · exact ⟨by decide, by decide, fun _ => rfl⟩

theorem three_columns_decode :
    (∀ c ∈ threeColumns, c.WellFormed) ∧
      ∃ rd, RelationDecoder.parse (relationBytes 1 "p" "u" .keys threeColumns ++ [9]) = .ok rd ∧
        rd.inner = ⟨1, "u", "p", [⟨true, "id", .int4⟩, ⟨false, "año", .text⟩], .keys⟩ := by
  obtain ⟨rd, hparse, hinner, _⟩ := relation_message_exact 1 "p" "u" .keys threeColumns [9]
    (by decide) (by decide) (by decide) threeColumns_wellFormed
  exact ⟨threeColumns_wellFormed, rd, hparse, hinner⟩

end CDC.RelationMessage
