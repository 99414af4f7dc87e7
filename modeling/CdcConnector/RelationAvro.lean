import CdcConnector.EventAvro

/-!
# Relations on the wire

The schema lists the namespace before the name, the type declares them the
other way round; both sides go by the fields' names. Kinds and identities are
written as their discriminants and read by a table.
-/

set_option autoImplicit false

namespace CDC.RelationAvro
open CDC.AvroCodec CDC.Event CDC.SerdeAvro CDC.EventAvro

def fieldSchema : Schema :=
  .record "Field" [("is_key", .boolean), ("name", .string), ("kind", .int)]

def relationSchema : Schema :=
  .record "Relation"
    [("relation_oid", .long), ("namespace", .string), ("name", .string),
      ("fields", .array fieldSchema), ("replica_id", .int)]

def fieldKindU8 : FieldKind → UInt8
  | .int4 => 0
  | .text => 1
  | .int8 => 2
  | .bool => 3
  | .timestamp => 4

def replicaKindU8 : ReplicaKind → UInt8
  | .keys => 0
  | .row => 1

def serializeField (f : Field) : Serde :=
  .struct "Field" [("is_key", .bool f.isKey), ("name", .str f.name), ("kind", .u8 (fieldKindU8 f.kind))]

def serializeRelation (relation : Relation) : Serde :=
  .struct "Relation"
    [("relation_oid", .u32 relation.relationOid), ("name", .str relation.name),
      ("namespace", .str relation.relNamespace), ("fields", .seq (relation.fields.map serializeField)),
      ("replica_id", .u8 (replicaKindU8 relation.replicaId))]

def unknownKind (other : UInt8) : DeError := .custom ("unknown FieldKind: " ++ toString other.toNat)

def deserializeFieldKind (d : Datum) : Except DeError FieldKind := do
  let n ← asU8 d
  if n = 0 then return .int4
  else if n = 1 then return .text
  else if n = 2 then return .int8
  else if n = 3 then return .bool
  else if n = 4 then return .timestamp
  else throw (unknownKind n)

def deserializeReplicaKind (d : Datum) : Except DeError ReplicaKind := do
  let n ← asU8 d
  if n = 0 then return .keys
  else if n = 1 then return .row
  else throw (unknownKind n)

def deserializeField (d : Datum) : Except DeError Field := do
  let fields ← asMap d
  let isKey ← asBool (← field "is_key" fields)
  let name ← asStr (← field "name" fields)
  let kind ← deserializeFieldKind (← field "kind" fields)
  return ⟨isKey, name, kind⟩

def deserializeFields (d : Datum) : Except DeError (List Field) := do
  (← asSeq d).mapM deserializeField

def deserializeRelation (d : Datum) : Except DeError Relation := do
  let fields ← asMap d
  let relationOid ← asU32 (← field "relation_oid" fields)
  let name ← asStr (← field "name" fields)
  let relNamespace ← asStr (← field "namespace" fields)
  let cols ← deserializeFields (← field "fields" fields)
  let replicaId ← deserializeReplicaKind (← field "replica_id" fields)
  return ⟨relationOid, name, relNamespace, cols, replicaId⟩

section Library
variable {SerError : Type} (lib : Library SerError)

def relationIntoAvro (relation : Relation) : Except SerError Bytes :=
  lib.toDatum relationSchema (serializeRelation relation)

def relationFromAvro (bytes : Bytes) : Except FromAvroError Relation :=
  match lib.fromDatum relationSchema bytes >>= deserializeRelation with
  | .ok relation => .ok relation
  | .error e => .error (.avro e)

end Library

theorem deserialize_fieldKind (kind : FieldKind) :
    deserializeFieldKind (.int (Int32.ofNat (fieldKindU8 kind).toNat)) = .ok kind := by
  rw [deserializeFieldKind, asU8_int]
  cases kind <;> rfl

theorem deserialize_replicaKind (kind : ReplicaKind) :
    deserializeReplicaKind (.int (Int32.ofNat (replicaKindU8 kind).toNat)) = .ok kind := by
  rw [deserializeReplicaKind, asU8_int]
  cases kind <;> rfl

def fieldRecord (f : Field) : Datum :=
  .record "Field" [("is_key", .boolean f.isKey), ("name", .string f.name),
    ("kind", .int (Int32.ofNat (fieldKindU8 f.kind).toNat))]

theorem resolve_field (f : Field) : resolve fieldSchema (serializeField f) = some (fieldRecord f) := by
  simp [fieldSchema, serializeField, fieldRecord, resolve, resolveFields, Serde.fields,
    List.lookup_cons]

theorem deserialize_fieldRecord (f : Field) : deserializeField (fieldRecord f) = .ok f := by
  simp [deserializeField, fieldRecord, asMap, asBool, asStr, field, deserialize_fieldKind, bind,
    Except.bind, pure, Except.pure]

theorem fields_agree (fields : List Field) :
    (fields.map serializeField).mapM (resolve fieldSchema) = some (fields.map fieldRecord) ∧
      (fields.map fieldRecord).mapM deserializeField = .ok fields := by
  induction fields with
  | nil => exact ⟨rfl, rfl⟩
  | cons f fields ih =>
    obtain ⟨hresolve, hread⟩ := ih
    constructor
    · rw [List.map_cons, List.mapM_cons, resolve_field, hresolve]
      rfl
    · rw [List.map_cons, List.mapM_cons, deserialize_fieldRecord, hread]
      rfl

theorem relation_agrees (relation : Relation) :
    ∃ d, resolve relationSchema (serializeRelation relation) = some d ∧
      deserializeRelation d = .ok relation := by
  obtain ⟨oid, name, nspace, fields, replicaId⟩ := relation
  obtain ⟨hresolve, hread⟩ := fields_agree fields
  have hcols : deserializeFields (.array (fields.map fieldRecord)) = .ok fields := hread
  refine ⟨.record "Relation" [("relation_oid", .long (Int64.ofNat oid.toNat)),
    ("namespace", .string nspace), ("name", .string name), ("fields", .array (fields.map fieldRecord)),
    ("replica_id", .int (Int32.ofNat (replicaKindU8 replicaId).toNat))], ?_, ?_⟩
  · simp [serializeRelation, relationSchema, resolve, resolveFields, Serde.fields, List.lookup_cons,
      hresolve]
  · simp [deserializeRelation, asMap, asStr, field, asU32_long, hcols, deserialize_replicaKind, bind,
      Except.bind, pure, Except.pure]

/-- Every relation is written and read back, by any library that keeps to the
encoding. -/
theorem relation_survives {SerError : Type} (lib : Library SerError) (hwrites : WritesAvro lib)
    (hreads : ReadsAvro lib) (relation : Relation) :
    ∃ bytes, relationIntoAvro lib relation = .ok bytes ∧
      relationFromAvro lib bytes = .ok relation := by
  obtain ⟨d, hd, hrelation⟩ := relation_agrees relation
  obtain ⟨bytes, hwritten, hread⟩ := written_read lib hwrites hreads _ _ d hd
  have hboth : (lib.fromDatum relationSchema bytes >>= deserializeRelation) = .ok relation := by
    rw [hread]
    exact hrelation
  exact ⟨bytes, hwritten, by rw [relationFromAvro, hboth]⟩

def everyKind : Relation :=
  ⟨4294967295, "public", "año",
    [⟨true, "id", .int8⟩, ⟨true, "", .text⟩, ⟨false, "n", .int4⟩, ⟨false, "on", .bool⟩,
      ⟨false, "at", .timestamp⟩], .row⟩

theorem every_kind_survives :
    WritesAvro codec ∧ ReadsAvro codec ∧
      ∃ bytes, relationIntoAvro codec everyKind = .ok bytes ∧
        relationFromAvro codec bytes = .ok everyKind :=
  ⟨codec_writes, codec_reads, relation_survives codec codec_writes codec_reads everyKind⟩

end CDC.RelationAvro
