import CdcConnector.Event
import CdcConnector.SerdeAvro

/-!
# Change events on the wire

The schema names the seven value records, and lists their union in one order
for inserts and in another for updates and deletes. The serialiser names a
record for each value, the visitor looks at the record's only field. Whatever
the order, a branch is found by its name and its datum read back.
-/

set_option autoImplicit false

namespace CDC.EventAvro
open CDC.AvroCodec CDC.Event CDC.SerdeAvro

def textRecord : Schema := .record "Text" [("Text", .string)]

def int4Record : Schema := .record "Int4" [("Int4", .long)]

def toastedRecord : Schema := .record "Toasted" [("Toasted", .null)]

def nullRecord : Schema := .record "Null" [("Null", .null)]

def int8Record : Schema := .record "Int8" [("Int8", .long)]

def boolRecord : Schema := .record "Bool" [("Bool", .boolean)]

def timestampRecord : Schema := .record "Timestamp" [("Timestamp", .long)]

def insertItems : Schema :=
  .union [textRecord, int4Record, toastedRecord, nullRecord, int8Record, boolRecord, timestampRecord]

def otherItems : Schema :=
  .union [textRecord, int4Record, nullRecord, toastedRecord, int8Record, boolRecord, timestampRecord]

def opSchema : Schema :=
  .union
    [.record "Insert" [("row", .array insertItems)],
      .record "Update" [("old", .array otherItems), ("row", .array otherItems)],
      .record "Delete" [("old", .array otherItems)]]

def changeEventSchema : Schema := .record "ChangeEvent" [("op", opSchema), ("rel", .long)]

def serializePgValue : PgValue → Serde
  | .null => .struct "Null" [("Null", .unit)]
  | .text s => .struct "Text" [("Text", .str s)]
  | .int4 n => .struct "Int4" [("Int4", .i32 n)]
  | .int8 n => .struct "Int8" [("Int8", .i64 n)]
  | .bool b => .struct "Bool" [("Bool", .bool b)]
  | .timestamp t => .struct "Timestamp" [("Timestamp", .i64 t)]
  | .toasted => .struct "Toasted" [("Toasted", .unit)]

def serializeRow (row : List PgValue) : Serde := .seq (row.map serializePgValue)

def serializeOp : Op → Serde
  | .insert row => .structVariant "Op" "Insert" [("row", serializeRow row)]
  | .update old row =>
    .structVariant "Op" "Update" [("old", serializeRow old), ("row", serializeRow row)]
  | .delete old => .structVariant "Op" "Delete" [("old", serializeRow old)]

def serializeEvent (event : ChangeEvent) : Serde :=
  .struct "ChangeEvent" [("op", serializeOp event.op), ("rel", .u32 event.rel)]

def visitValue (key : String) (value : Datum) : Except DeError PgValue := do
  if key = "Text" then return .text (← asStr value)
  else if key = "Int4" then return .int4 (← asI32 value)
  else if key = "Int8" then return .int8 (← asI64 value)
  else if key = "Bool" then return .bool (← asBool value)
  else if key = "Timestamp" then return .timestamp (← asI64 value)
  else if key = "Null" then
    asUnit value
    return .null
  else if key = "Toasted" then
    asUnit value
    return .toasted
  else throw (.custom ("unknown PgValue variant: " ++ key))

def deserializePgValue (d : Datum) : Except DeError PgValue := do
  match ← asMap d with
  | [] => throw (.custom "empty PgValue record")
  | (key, value)::_ => visitValue key value

def deserializeRow (d : Datum) : Except DeError (List PgValue) := do
  (← asSeq d).mapM deserializePgValue

def deserializeOp (d : Datum) : Except DeError Op := do
  let (variant, fields) ← asVariant d
  if variant = "Insert" then return .insert (← deserializeRow (← field "row" fields))
  else if variant = "Update" then
    let old ← deserializeRow (← field "old" fields)
    let row ← deserializeRow (← field "row" fields)
    return .update old row
  else if variant = "Delete" then return .delete (← deserializeRow (← field "old" fields))
  else throw (.unknownVariant variant)

def deserializeEvent (d : Datum) : Except DeError ChangeEvent := do
  let fields ← asMap d
  let op ← deserializeOp (← field "op" fields)
  let rel ← asU32 (← field "rel" fields)
  return ⟨op, rel⟩

inductive FromAvroError where
  | noEvents
  | avro (e : DeError)
  deriving DecidableEq, Repr

section Library
variable {SerError : Type} (lib : Library SerError)

def intoAvro (event : ChangeEvent) : Except SerError Bytes :=
  lib.toDatum changeEventSchema (serializeEvent event)

def fromAvro (bytes : Bytes) : Except FromAvroError ChangeEvent :=
  match lib.fromDatum changeEventSchema bytes >>= deserializeEvent with
  | .ok event => .ok event
  | .error e => .error (.avro e)

end Library

def valueRecord : PgValue → Datum
  | .null => .record "Null" [("Null", .null)]
  | .text s => .record "Text" [("Text", .string s)]
  | .int4 n => .record "Int4" [("Int4", .long n.toInt64)]
  | .int8 n => .record "Int8" [("Int8", .long n)]
  | .bool b => .record "Bool" [("Bool", .boolean b)]
  | .timestamp t => .record "Timestamp" [("Timestamp", .long t)]
  | .toasted => .record "Toasted" [("Toasted", .null)]

theorem deserialize_valueRecord (i : ℕ) (v : PgValue) :
    deserializePgValue (.union i (valueRecord v)) = .ok v := by
  cases v with
  | int4 n =>
    show (asI32 (.long n.toInt64) >>= fun m => .ok (PgValue.int4 m)) = .ok (.int4 n)
    rw [asI32_long]
    rfl
  | _ => rfl

/-- The items have a branch for the record of every value. -/
def Complete (items : Schema) : Prop :=
  ∀ v, ∃ i, resolve items (serializePgValue v) = some (.union i (valueRecord v))

theorem insertItems_complete : Complete insertItems := by
  intro v
  cases v <;> exact ⟨_, rfl⟩

theorem otherItems_complete : Complete otherItems := by
  intro v
  cases v <;> exact ⟨_, rfl⟩

theorem values_agree (items : Schema) (h : Complete items) (row : List PgValue) :
    ∃ ds, (row.map serializePgValue).mapM (resolve items) = some ds ∧
      ds.mapM deserializePgValue = .ok row := by
  induction row with
  | nil => exact ⟨[], rfl, rfl⟩
  | cons v row ih =>
    obtain ⟨i, hv⟩ := h v
    obtain ⟨ds, hds, hrow⟩ := ih
    refine ⟨.union i (valueRecord v) :: ds, ?_, ?_⟩
    · rw [List.map_cons, List.mapM_cons, hv, hds]
      rfl
    · rw [List.mapM_cons, deserialize_valueRecord, hrow]
      rfl

theorem row_agrees (items : Schema) (h : Complete items) (row : List PgValue) :
    ∃ d, resolve (.array items) (serializeRow row) = some d ∧ deserializeRow d = .ok row := by
  obtain ⟨ds, hds, hrow⟩ := values_agree items h row
  refine ⟨.array ds, ?_, hrow⟩
  rw [serializeRow, resolve, hds]
  rfl

theorem op_agrees (op : Op) :
    ∃ d, resolve opSchema (serializeOp op) = some d ∧ deserializeOp d = .ok op := by
  cases op with
  | insert row =>
    obtain ⟨d, hd, hrow⟩ := row_agrees insertItems insertItems_complete row
    refine ⟨.union 0 (.record "Insert" [("row", d)]), ?_, ?_⟩
    · simp [serializeOp, opSchema, resolve, resolveBranch, isNamed, resolveFields, Serde.recordName,
        Serde.fields, List.lookup_cons, hd]
    · simp [deserializeOp, asVariant, field, hrow, bind, Except.bind, pure, Except.pure]
  | update old row =>
    obtain ⟨d, hd, hold⟩ := row_agrees otherItems otherItems_complete old
    obtain ⟨d', hd', hrow⟩ := row_agrees otherItems otherItems_complete row
    refine ⟨.union 1 (.record "Update" [("old", d), ("row", d')]), ?_, ?_⟩
    · simp [serializeOp, opSchema, resolve, resolveBranch, isNamed, resolveFields, Serde.recordName,
        Serde.fields, List.lookup_cons, hd, hd']
    · simp [deserializeOp, asVariant, field, hold, hrow, bind, Except.bind, pure, Except.pure]
  | delete old =>
    obtain ⟨d, hd, hold⟩ := row_agrees otherItems otherItems_complete old
    refine ⟨.union 2 (.record "Delete" [("old", d)]), ?_, ?_⟩
    · simp [serializeOp, opSchema, resolve, resolveBranch, isNamed, resolveFields, Serde.recordName,
        Serde.fields, List.lookup_cons, hd]
    · simp [deserializeOp, asVariant, field, hold, bind, Except.bind, pure, Except.pure]

theorem event_agrees (event : ChangeEvent) :
    ∃ d, resolve changeEventSchema (serializeEvent event) = some d ∧
      deserializeEvent d = .ok event := by
  obtain ⟨op, rel⟩ := event
  obtain ⟨d, hd, hop⟩ := op_agrees op
  refine ⟨.record "ChangeEvent" [("op", d), ("rel", .long (Int64.ofNat rel.toNat))], ?_, ?_⟩
  · simp [serializeEvent, changeEventSchema, resolve, resolveFields, Serde.fields, List.lookup_cons,
      hd]
  · simp [deserializeEvent, asMap, field, hop, asU32_long, bind, Except.bind, pure, Except.pure]

/-- Every event is written and read back, by any library that keeps to the
encoding. -/
theorem event_survives {SerError : Type} (lib : Library SerError) (hwrites : WritesAvro lib)
    (hreads : ReadsAvro lib) (event : ChangeEvent) :
    ∃ bytes, intoAvro lib event = .ok bytes ∧ fromAvro lib bytes = .ok event := by
  obtain ⟨d, hd, hevent⟩ := event_agrees event
  obtain ⟨bytes, hwritten, hread⟩ := written_read lib hwrites hreads _ _ d hd
  have hboth : (lib.fromDatum changeEventSchema bytes >>= deserializeEvent) = .ok event := by
    rw [hread]
    exact hevent
  exact ⟨bytes, hwritten, by rw [fromAvro, hboth]⟩

def wideUpdate : ChangeEvent :=
  ⟨.update [.int4 (-2147483648), .text "año", .null]
    [.int8 9223372036854775807, .toasted, .bool true, .timestamp (-1)], 4294967295⟩

theorem wide_update_survives :
    WritesAvro codec ∧ ReadsAvro codec ∧
      ∃ bytes, intoAvro codec wideUpdate = .ok bytes ∧ fromAvro codec bytes = .ok wideUpdate :=
  ⟨codec_writes, codec_reads, event_survives codec codec_writes codec_reads wideUpdate⟩

end CDC.EventAvro
