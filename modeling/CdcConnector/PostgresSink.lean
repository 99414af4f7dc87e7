import Mathlib.Logic.Function.Basic
import CdcConnector.SinkStatements

/-!
# The Postgres sink

An event is applied in two parts: its statement and parameters are looked up
or prepared, then the statement is executed. The two statement caches and the
relation cache are keyed by the relation; only the relation cache follows
`on_relation`.
-/

set_option autoImplicit false

namespace CDC.PostgresSink
open CDC.Fallible CDC.Event CDC.SinkModel CDC.SinkStatements

inductive RelationIdentity where
  | full
  | keys (ids : List ℕ)
  deriving DecidableEq

def extractKeysPos (fields : List Field) : List ℕ :=
  fields.zipIdx.filterMap (fun (f, i) => if f.isKey then some i else none)

def extractKeyIdentity (rel : Relation) : RelationIdentity :=
  match rel.replicaId with
  | .keys => .keys (extractKeysPos rel.fields)
  | .row => .full

def extractFieldsNames (rel : Relation) : List String := rel.fields.map Field.name

def extractKeysRel (rel : Relation) : List String :=
  rel.fields.filterMap (fun f => if f.isKey then some f.name else none)

structure RelationCache where
  identities : Oid → Option RelationIdentity
  tableNames : Oid → Option String
  fields : Oid → Option (List String)
  keys : Oid → Option (List String)

namespace RelationCache

def new : RelationCache := ⟨fun _ => none, fun _ => none, fun _ => none, fun _ => none⟩

def fromRels (rels : Oid → Option Relation) : RelationCache where
  identities oid := (rels oid).map extractKeyIdentity
  tableNames oid := (rels oid).map Relation.name
  fields oid := (rels oid).map extractFieldsNames
  keys oid := (rels oid).map extractKeysRel

def update (relation : Relation) (rc : RelationCache) : RelationCache where
  identities := Function.update rc.identities relation.relationOid (extractKeyIdentity relation)
  tableNames := Function.update rc.tableNames relation.relationOid relation.name
  fields := Function.update rc.fields relation.relationOid (extractFieldsNames relation)
  keys := Function.update rc.keys relation.relationOid (extractKeysRel relation)

theorem update_fromRels (relation : Relation) (rels : Oid → Option Relation) :
    (fromRels rels).update relation =
      fromRels (Function.update rels relation.relationOid (some relation)) := by
  have hmap : ∀ {α : Type} (f : Relation → α),
      Function.update (fun oid => (rels oid).map f) relation.relationOid (some (f relation)) =
        fun oid => (Function.update rels relation.relationOid (some relation) oid).map f := by
    intro α f
    funext oid
    by_cases h : oid = relation.relationOid
    · rw [h, Function.update_self, Function.update_self, Option.map_some]
    · rw [Function.update_of_ne h, Function.update_of_ne h]
  simp only [update, fromRels, hmap]

end RelationCache

abbrev StatementCache := Oid → Option Statement

section Sink
variable {D : Type} [PostgresClient D]

def cached (rel : Oid) (cache : StatementCache) (r : D × Outcome SinkError Statement) :
    (D × StatementCache) × Outcome SinkError Statement :=
  match r with
  | (client, .ok stmt) => ((client, Function.update cache rel (some stmt)), .ok stmt)
  | (client, .error e) => ((client, cache), .error e)

def UpsertStatementCache.get (client : D) (rel : Oid) (relationCache : RelationCache)
    (cache : StatementCache) : (D × StatementCache) × Outcome SinkError Statement :=
  match cache rel with
  | some stmt => ((client, cache), .ok stmt)
  | none =>
    match relationCache.tableNames rel with
    | none => ((client, cache), fail (.unknownRelation rel))
    | some table =>
      match relationCache.fields rel, relationCache.keys rel with
      | some rows, some keys => cached rel cache (UpsertStatement.new table rows keys client)
      | _, _ => ((client, cache), panicked)

def DeleteStatementCache.get (client : D) (rel : Oid) (relationCache : RelationCache)
    (cache : StatementCache) : (D × StatementCache) × Outcome SinkError Statement :=
  match cache rel with
  | some stmt => ((client, cache), .ok stmt)
  | none =>
    match relationCache.keys rel, relationCache.tableNames rel with
    | some keys, some table => cached rel cache (DeleteStatement.new table keys client)
    | _, _ => ((client, cache), fail (.unknownRelation rel))

structure Sink (D : Type) where
  client : D
  upsertStmtCache : StatementCache
  deleteStmtCache : StatementCache
  relationCache : RelationCache

def new (client : D) (relations : Oid → Option Relation) : Sink D :=
  ⟨client, fun _ => none, fun _ => none, RelationCache.fromRels relations⟩

def upsertStatement (rel : Oid) (s : Sink D) : Sink D × Outcome SinkError Statement :=
  let ((client, cache), stmt) :=
    UpsertStatementCache.get s.client rel s.relationCache s.upsertStmtCache
  ({ s with client := client, upsertStmtCache := cache }, stmt)

def deleteStatement (rel : Oid) (s : Sink D) : Sink D × Outcome SinkError Statement :=
  let ((client, cache), stmt) :=
    DeleteStatementCache.get s.client rel s.relationCache s.deleteStmtCache
  ({ s with client := client, deleteStmtCache := cache }, stmt)

/-- The old values are filtered by the columns' positions in the row. -/
def deleteParams (identity : Option RelationIdentity) (rel : Oid) (old : List PgValue) :
    Outcome SinkError (List PgValue) :=
  match identity with
  | some .full => .ok old
  | some (.keys ids) =>
    .ok (old.zipIdx.filterMap (fun (v, i) => if ids.contains i then some v else none))
  | none => fail (.unknownRelation rel)

/-- The first part of `on_event`: the statement and its parameters. -/
def prepareEvent (event : ChangeEvent) (s : Sink D) :
    Sink D × Outcome SinkError (Statement × List PgValue) :=
  match mergeToasted event.op with
  | .error _ => (s, fail .toastedInKeyOnly)
  | .ok (.insert row) =>
    let (s, stmt) := upsertStatement event.rel s
    (s, stmt >>= fun stmt => .ok (stmt, row))
  | .ok (.update _ row) =>
    let (s, stmt) := upsertStatement event.rel s
    (s, stmt >>= fun stmt => .ok (stmt, row))
  | .ok (.delete old) =>
    let (s, stmt) := deleteStatement event.rel s
    (s, stmt >>= fun stmt =>
      deleteParams (s.relationCache.identities event.rel) event.rel old >>= fun params =>
        .ok (stmt, params))

def platform : Outcome String Unit → Answer
  | .ok () => .ok ()
  | .error (.error e) => fail (.platform e)
  | .error .panic => panicked

def onEvent (event : ChangeEvent) (s : Sink D) : Sink D × Answer :=
  match prepareEvent event s with
  | (s, .ok (stmt, params)) =>
    let (client, r) := PostgresClient.execute stmt (params.map toSql) s.client
    ({ s with client := client }, platform r)
  | (s, .error e) => (s, .error e)

def onRelation (relation : Relation) (s : Sink D) : Sink D × Answer :=
  ({ s with relationCache := s.relationCache.update relation }, .ok ())

instance : KafkaSink (Sink D) := ⟨onEvent, onRelation⟩

end Sink

end CDC.PostgresSink
