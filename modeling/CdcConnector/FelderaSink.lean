import CdcConnector.Feldera
import CdcConnector.JsonReader
import CdcConnector.KafkaConsumer
import CdcConnector.StatementCache
import CdcConnector.Weights

/-!
# The Feldera sink

The sink sends each change as a batch of its own to the ingress of a pipeline,
under the table name and the column names of the latest relation. A server that
reads the body adds up the changes in it.
-/

set_option autoImplicit false

namespace CDC.FelderaSink
open CDC.Fallible CDC.Event CDC.SinkModel CDC.JsonText CDC.JsonReader CDC.JsonValue CDC.Feldera
open CDC.Weights CDC.StatementCache

inductive JsonUpdateFormat where
  | insertDelete
  deriving DecidableEq

structure Request where
  pipelineName : String
  tableName : String
  format : String
  updateFormat : JsonUpdateFormat
  force : Bool
  body : List Char

class FelderaClient (F : Type) where
  send : Request → F → F × Except String Unit

inductive InsertError where
  | feldera (e : String)
  | serialization (e : String)
  | unknownRelation (oid : Oid)

def InsertError.display : InsertError → String
  | feldera e => "Feldera api had an error " ++ e
  | serialization e => "Serialization " ++ e
  | unknownRelation oid => "Unknow oid " ++ toString oid

structure FelderaConnector (F E : Type) where
  inner : F
  pipeline : String
  tableNames : Oid → Option String
  fieldNames : FieldNames
  overflowChecks : Bool
  /-- What the writer makes of an element, by the number of lines before it. -/
  write : ℕ → FelderaEvent → Except E (List Char)
  written : ℕ

section Model
variable {F E : Type} [FelderaClient F] [ToString E]

def new (inner : F) (pipeline : String) (relations : Oid → Option Relation) (overflowChecks : Bool)
    (write : ℕ → FelderaEvent → Except E (List Char)) : FelderaConnector F E where
  inner := inner
  pipeline := pipeline
  tableNames oid := (relations oid).map Relation.name
  fieldNames oid := (relations oid).map (fun rel => extractNames rel.fields)
  overflowChecks := overflowChecks
  write := write
  written := 0

def insertBatch (table : String) (records : List ChangeEvent) (k : FelderaConnector F E) :
    FelderaConnector F E × Outcome InsertError Unit :=
  match convertOpBatches k.overflowChecks k.fieldNames records with
  | .error .panic => (k, panicked)
  | .error (.error (.unknownRelation oid)) => (k, fail (.unknownRelation oid))
  | .ok batch =>
    match toLines k.write k.written batch with
    | .error e => (k, fail (.serialization (toString e)))
    | .ok jsonStr =>
      match FelderaClient.send ⟨k.pipeline, table, "json", .insertDelete, false, jsonStr⟩ k.inner with
      | (inner, .ok ()) => ({ k with inner := inner, written := k.written + batch.length }, .ok ())
      | (inner, .error e) =>
        ({ k with inner := inner, written := k.written + batch.length }, fail (.feldera e))

def onEvent (event : ChangeEvent) (k : FelderaConnector F E) : FelderaConnector F E × Answer :=
  match mergeToasted event.op with
  | .error _ => (k, fail .toastedInKeyOnly)
  | .ok op =>
    match k.tableNames event.rel with
    | none => (k, fail (.unknownRelation event.rel))
    | some table =>
      match insertBatch table [⟨op, event.rel⟩] k with
      | (k, .ok ()) => (k, .ok ())
      | (k, .error .panic) => (k, panicked)
      | (k, .error (.error (.unknownRelation oid))) => (k, fail (.unknownRelation oid))
      | (k, .error (.error e)) => (k, fail (.platform e.display))

def onRelation (relation : Relation) (k : FelderaConnector F E) : FelderaConnector F E × Answer :=
  ({ k with
    tableNames := Function.update k.tableNames relation.relationOid (some relation.name)
    fieldNames := Function.update k.fieldNames relation.relationOid
      (some (extractNames relation.fields)) }, .ok ())

instance : KafkaSink (FelderaConnector F E) := ⟨onEvent, onRelation⟩

end Model

section Reading

abbrev Content := String → Option Value

def content (row : FelderaRow) : Content := fun f => row.lookup f

def change : FelderaEvent → Change Content
  | .insert row => .insert (content row)
  | .delete row => .delete (content row)

def readElement : List Char → Option (String × List Entry)
  | '{' :: '"' :: text => do
    let (tag, text) ← readChars text
    match text with
    | ':' :: text => do
      let (entries, rest) ← readObject text
      match rest with
      | ['}'] => return (String.ofList tag, entries)
      | _ => none
    | _ => none
  | _ => none

def readChange (line : List Char) : Option (Change Content) := do
  let (tag, entries) ← readElement line
  if tag = "insert" then return .insert (fun f => List.dlookup f entries)
  else if tag = "delete" then return .delete (fun f => List.dlookup f entries)
  else none

def readBody (body : List Char) : Option (List (Change Content)) :=
  (body.splitOn '\n').dropLast.mapM readChange

theorem readElement_document (tag : String) (entries : List Entry) :
    readElement ('{' :: (quoted tag ++ ':' :: (members entries ++ ['}']))) = some (tag, entries) := by
  have htag := readChars_quoted tag.toList (':' :: (members entries ++ ['}']))
  have hobject := readObject_text entries ['}']
  rw [quoted, List.cons_append, List.append_assoc, List.singleton_append, readElement, htag]
  simp only [Option.pure_def, Option.bind_eq_bind, Option.bind_some, hobject, String.ofList_toList]

theorem readChange_document (op : FelderaEvent) (document : List Char) (h : op.Document document) :
    readChange document = some (change op) := by
  obtain ⟨entries, hperm, rfl⟩ := h
  have hlookup : ∀ f, List.dlookup f entries = op.row.lookup f :=
    fun f => (List.perm_dlookup f op.row.nodupKeys hperm.symm).symm
  have hcontent : (fun f => List.dlookup f entries) = content op.row := funext hlookup
  rw [readChange, readElement_document]
  simp only [Option.pure_def, Option.bind_eq_bind, Option.bind_some, hcontent]
  cases op with
  | insert row => rfl
  | delete row => rfl

theorem mapM_documents (batch : List FelderaEvent) (documents : List (List Char))
    (h : List.Forall₂ FelderaEvent.Document batch documents) :
    documents.mapM readChange = some (batch.map change) := by
  induction h with
  | nil => rfl
  | @cons op document batch documents hfirst _ ih =>
    rw [List.mapM_cons, readChange_document op document hfirst, ih]
    rfl

theorem documents_read (batch : List FelderaEvent) (documents : List (List Char))
    (h : List.Forall₂ FelderaEvent.Document batch documents) :
    readBody (documents.flatMap (fun document => document ++ ['\n'])) = some (batch.map change) := by
  have hplain : ∀ document ∈ documents, Plain document := by
    intro document hmem
    obtain ⟨i, hi, rfl⟩ := List.mem_iff_getElem.mp hmem
    have hout : i < batch.length := by rwa [h.length_eq]
    exact document_plain _ _ (List.Forall₂.get h hout hi)
  rw [readBody, splitOn_lines documents hplain, List.dropLast_concat]
  exact mapM_documents batch documents h

/-- The body of any batch is read back as the changes of the batch, in order. -/
theorem body_reads_back {E : Type} (write : ℕ → FelderaEvent → Except E (List Char))
    (hwrites : WritesJson write) (batch : List FelderaEvent) (n : ℕ) :
    ∃ body, toLines write n batch = .ok body ∧ readBody body = some (batch.map change) := by
  obtain ⟨documents, hdocuments, hlines⟩ := toLines_documents write hwrites batch n
  exact ⟨_, hlines, documents_read batch documents hdocuments⟩

def renamed : List FelderaEvent :=
  [.delete (collect [("id", .number 1), ("name", .string "Ada")]),
    .insert (collect [("id", .number (-1)), ("name", .string "A\"d\na")])]

theorem renamed_reads_back :
    ∃ body, toLines writeInOrder 7 renamed = .ok body ∧ readBody body = some (renamed.map change) :=
  body_reads_back writeInOrder writeInOrder_writes renamed 7

end Reading

end CDC.FelderaSink
