import CdcConnector.SinkTable
import CdcConnector.StatementCache

/-!
# All tables of the sink

A database holds a table for each name. The server takes the statements of a
relation as the upsert and the delete on the relation's table, or refuses them
for good, as it may refuse values.
-/

set_option autoImplicit false

namespace CDC.SinkTables
open CDC.Fallible CDC.Event CDC.SinkModel CDC.SinkStatements CDC.PostgresSink CDC.SinkDatabase
open CDC.SinkTable CDC.SourceTable CDC.StatementCache

abbrev Tables := String → Finset TableRow

def onTable (name : String) (f : Finset TableRow → Finset TableRow) (tables : Tables) : Tables :=
  Function.update tables name (f (tables name))

theorem onTable_id (name : String) : onTable name id = id := by
  funext tables
  exact Function.update_eq_self name tables

theorem onTable_twice (name : String) (f g : Finset TableRow → Finset TableRow) (tables : Tables) :
    onTable name g (onTable name f tables) = onTable name (fun t => g (f t)) tables := by
  unfold onTable
  rw [Function.update_self, Function.update_idem]

theorem onTable_comm (name name' : String) (hne : name ≠ name')
    (f g : Finset TableRow → Finset TableRow) (tables : Tables) :
    onTable name f (onTable name' g tables) = onTable name' g (onTable name f tables) := by
  unfold onTable
  rw [Function.update_of_ne hne, Function.update_of_ne hne.symm, Function.update_comm hne]

/-- What the server makes of a relation's statements: the columns of the
relation's table, and for each statement the values it takes, or that it
refuses the text. -/
structure Service where
  columns : Relation → List String
  upserts : Relation → Option (List Cell → Bool)
  deletes : Relation → Option (List Cell → Bool)

section Server
variable {D : Type} [PostgresClient D] (tables : D → Tables)

structure Takes (columns : List String) (name text : String) (command : Command)
    (admits : List Cell → Bool) : Prop where
  prepared : ∀ d, ∃ d', PostgresClient.prepare text d = (d', .ok ()) ∧ tables d' = tables d
  short : ∀ params d, params.length ≠ command.arity →
    ∃ d' e, PostgresClient.execute ⟨text⟩ params d = (d', fail e) ∧ tables d' = tables d
  unconverted : ∀ params e d, params.length = command.arity → convert params = .error e →
    ∃ d', PostgresClient.execute ⟨text⟩ params d = (d', .error e) ∧ tables d' = tables d
  executed : ∀ params values d, params.length = command.arity → convert params = .ok values →
    admits values = true → ∃ d', PostgresClient.execute ⟨text⟩ params d = (d', .ok ()) ∧
      tables d' = onTable name (command.run columns values) (tables d)
  rejected : ∀ params values d, params.length = command.arity → convert params = .ok values →
    admits values = false → ∃ d' e, PostgresClient.execute ⟨text⟩ params d = (d', fail e) ∧
      tables d' = tables d

def Understood (columns : List String) (name text : String) (command : Command) :
    Option (List Cell → Bool) → Prop
  | some admits => Takes tables columns name text command admits
  | none => Refuses tables text

/-- No two relations share a table, and the server answers the statements of
the relations that may come as the service says. -/
structure Hosts (svc : Service) (rels : Oid → Relation → Prop) : Prop where
  own_table : ∀ oid oid' rel rel', rels oid rel → rels oid' rel' → rel.name = rel'.name →
    oid = oid'
  upserts : ∀ oid rel, rels oid rel →
    Understood tables (svc.columns rel) rel.name (upsertText rel) (upsertCommand rel)
      (svc.upserts rel)
  deletes : ∀ oid rel, rels oid rel →
    Understood tables (svc.columns rel) rel.name (deleteText rel) (deleteCommand rel)
      (svc.deletes rel)

end Server

structure Server (rels : List Relation) where
  tables : Tables

namespace Server
variable {rels : List Relation}

def meaning (rels : List Relation) (text : String) : Option (Relation × Command) :=
  rels.findSome? (fun rel =>
    if text = upsertText rel then some (rel, upsertCommand rel)
    else if text = deleteText rel then some (rel, deleteCommand rel)
    else none)

def prepare (text : String) (d : Server rels) : Server rels × Except String Unit :=
  (d, if (meaning rels text).isSome then .ok () else .error "syntax error")

def execute (stmt : Statement) (params : List (Outcome String Cell)) (d : Server rels) :
    Server rels × Outcome String Unit :=
  match meaning rels stmt.text with
  | none => (d, fail "syntax error")
  | some (rel, command) =>
    if params.length ≠ command.arity then (d, fail "wrong number of parameters")
    else
      match convert params with
      | .ok values =>
        (⟨onTable rel.name (command.run (extractFieldsNames rel) values) d.tables⟩, .ok ())
      | .error e => (d, .error e)

instance : PostgresClient (Server rels) := ⟨prepare, execute⟩

theorem takes (text : String) (rel : Relation) (command : Command)
    (h : meaning rels text = some (rel, command)) :
    Takes (tables : Server rels → Tables) (extractFieldsNames rel) rel.name text command
      (fun _ => true) where
  prepared d := ⟨d, by simp only [PostgresClient.prepare, prepare, h, Option.isSome_some, if_true],
    rfl⟩
  short params d hne := ⟨d, "wrong number of parameters", by
    simp only [PostgresClient.execute, execute, h, if_pos hne], rfl⟩
  unconverted params e d heq hc := ⟨d, by
    simp only [PostgresClient.execute, execute, h, heq, ne_eq, not_true_eq_false, if_false, hc], rfl⟩
  executed params values d heq hc _ := ⟨⟨onTable rel.name
    (command.run (extractFieldsNames rel) values) d.tables⟩, by
      simp only [PostgresClient.execute, execute, h, heq, ne_eq, not_true_eq_false, if_false, hc],
    rfl⟩
  rejected _ _ _ _ _ hadmits := by cases hadmits

def service : Service := ⟨extractFieldsNames, fun _ => some (fun _ => true),
  fun _ => some (fun _ => true)⟩

theorem hosts (held : Oid → Relation → Prop)
    (hown : ∀ oid oid' rel rel', held oid rel → held oid' rel' → rel.name = rel'.name →
      oid = oid')
    (hmeaning : ∀ oid rel, held oid rel → ∃ r, r.name = rel.name ∧
      extractFieldsNames r = extractFieldsNames rel ∧
        meaning rels (upsertText rel) = some (r, upsertCommand rel) ∧
          meaning rels (deleteText rel) = some (r, deleteCommand rel)) :
    Hosts (tables : Server rels → Tables) service held := by
  refine ⟨hown, fun oid rel hheld => ?_, fun oid rel hheld => ?_⟩
  · obtain ⟨r, hname, hcolumns, hupsert, _⟩ := hmeaning oid rel hheld
    have htakes := takes _ r _ hupsert
    rw [hname, hcolumns] at htakes
    exact htakes
  · obtain ⟨r, hname, hcolumns, _, hdelete⟩ := hmeaning oid rel hheld
    have htakes := takes _ r _ hdelete
    rw [hname, hcolumns] at htakes
    exact htakes

end Server

end CDC.SinkTables
