import CdcConnector.KeyedTable
import CdcConnector.SinkStatements

/-!
# The sink's database

The database is outside the connector and a parameter. What a statement does
to the table, by column names and with nulls that equal nothing, is stated
here; on tables with non-null keys it is the upsert and the removal by key.
-/

set_option autoImplicit false

namespace CDC.SinkDatabase
open CDC.Fallible CDC.Event CDC.SinkStatements CDC.KeyedTable

abbrev TableRow := List Cell

inductive Command where
  /-- Insert the rows' columns; on a conflict on the keys assign the new
  values of the assigned columns. -/
  | upsert (rows keys assigned : List String)
  | delete (keys : List String)
  deriving DecidableEq

def cell (columns : List String) (row : TableRow) (c : String) : Cell :=
  (row[columns.idxOf c]?).getD .null

def keyOf (columns keys : List String) (row : TableRow) : List Cell :=
  keys.map (cell columns row)

/-- Equality of keys in a condition or a conflict; a null makes it unknown. -/
def keyEquals (k k' : List Cell) : Bool := k = k' && !k.contains .null

def executeUpsert (columns rows keys assigned : List String) (values : List Cell)
    (table : Finset TableRow) : Finset TableRow :=
  let row := columns.map (cell rows values)
  let hit := table.filter (fun r => keyEquals (keyOf columns keys r) (keyOf columns keys row))
  if hit = ∅ then insert row table
  else (table \ hit) ∪ hit.image (fun r =>
    columns.map (fun c => if c ∈ assigned then cell columns row c else cell columns r c))

def executeDelete (columns keys : List String) (values : List Cell) (table : Finset TableRow) :
    Finset TableRow :=
  table.filter (fun r => ¬ keyEquals (keyOf columns keys r) values)

namespace Command

def arity : Command → ℕ
  | upsert rows _ _ => rows.length
  | delete keys => keys.length

def run (columns : List String) (values : List Cell) : Command → Finset TableRow → Finset TableRow
  | upsert rows keys assigned => executeUpsert columns rows keys assigned values
  | delete keys => executeDelete columns keys values

end Command

def convert : List (Outcome String Cell) → Outcome String (List Cell)
  | [] => .ok []
  | p::ps => do
    let c ← p
    let cs ← convert ps
    return c :: cs

theorem convert_length (ps : List (Outcome String Cell)) (cs : List Cell)
    (h : convert ps = .ok cs) : cs.length = ps.length := by
  induction ps generalizing cs with
  | nil =>
    cases h
    rfl
  | cons p ps ih =>
    simp only [convert, bind_ok_iff] at h
    obtain ⟨c, _, cs', hcs, h⟩ := h
    cases h
    rw [List.length_cons, List.length_cons, ih cs' hcs]

/-- What the sink relies on: the text is accepted as the command. The number of
parameters is checked before they are converted, and a call that fails leaves
the table alone. -/
structure Accepts {D : Type} [PostgresClient D] (columns : List String)
    (table : D → Finset TableRow) (text : String) (command : Command) : Prop where
  prepared : ∀ d, ∃ d', PostgresClient.prepare text d = (d', .ok ()) ∧ table d' = table d
  short : ∀ params d, params.length ≠ command.arity →
    ∃ d' e, PostgresClient.execute ⟨text⟩ params d = (d', fail e) ∧ table d' = table d
  executed : ∀ params values d, params.length = command.arity → convert params = .ok values →
    ∃ d', PostgresClient.execute ⟨text⟩ params d = (d', .ok ()) ∧
      table d' = command.run columns values (table d)
  unconverted : ∀ params e d, params.length = command.arity → convert params = .error e →
    ∃ d', PostgresClient.execute ⟨text⟩ params d = (d', .error e) ∧ table d' = table d

/-- The text is refused, and what is looked at stays as it is. -/
structure Refuses {D V : Type} [PostgresClient D] (view : D → V) (text : String) : Prop where
  refused : ∀ d, ∃ d' e, PostgresClient.prepare text d = (d', .error e) ∧ view d' = view d

def Answers {D : Type} [PostgresClient D] (columns : List String) (table : D → Finset TableRow)
    (text : String) (command : Command) : Bool → Prop
  | true => Accepts columns table text command
  | false => Refuses table text

structure Database (columns : List String) (meaning : String → Option Command) where
  table : Finset TableRow

namespace Database
variable {columns : List String} {meaning : String → Option Command}

def prepare (text : String) (d : Database columns meaning) :
    Database columns meaning × Except String Unit :=
  (d, if (meaning text).isSome then .ok () else .error "syntax error")

def execute (stmt : Statement) (params : List (Outcome String Cell))
    (d : Database columns meaning) : Database columns meaning × Outcome String Unit :=
  match meaning stmt.text with
  | none => (d, fail "syntax error")
  | some command =>
    if params.length ≠ command.arity then (d, fail "wrong number of parameters")
    else
      match convert params with
      | .ok values => (⟨command.run columns values d.table⟩, .ok ())
      | .error e => (d, .error e)

instance : PostgresClient (Database columns meaning) := ⟨prepare, execute⟩

theorem accepts (text : String) (command : Command) (h : meaning text = some command) :
    Accepts columns (table : Database columns meaning → Finset TableRow) text command where
  prepared d := ⟨d, by simp only [PostgresClient.prepare, prepare, h, Option.isSome_some, if_true],
    rfl⟩
  short params d hne := ⟨d, "wrong number of parameters", by
    simp only [PostgresClient.execute, execute, h, if_pos hne], rfl⟩
  executed params values d heq hc := ⟨⟨command.run columns values d.table⟩, by
    simp only [PostgresClient.execute, execute, h, heq, ne_eq, not_true_eq_false, if_false, hc], rfl⟩
  unconverted params e d heq hc := ⟨d, by
    simp only [PostgresClient.execute, execute, h, heq, ne_eq, not_true_eq_false, if_false, hc], rfl⟩

end Database

/-- A row of the table, with a key. -/
structure RowOk (columns keys : List String) (row : TableRow) : Prop where
  length_eq : row.length = columns.length
  key_present : Cell.null ∉ keyOf columns keys row

instance (columns keys : List String) (row : TableRow) : Decidable (RowOk columns keys row) :=
  decidable_of_iff (row.length = columns.length ∧ Cell.null ∉ keyOf columns keys row)
    ⟨fun h => ⟨h.1, h.2⟩, fun h => ⟨h.1, h.2⟩⟩

structure TableOk (columns keys : List String) (table : Finset TableRow) : Prop where
  rows : ∀ r ∈ table, RowOk columns keys r
  keyed : Keyed (keyOf columns keys) table

theorem tableOk_singleton (columns keys : List String) (row : TableRow)
    (h : RowOk columns keys row) : TableOk columns keys {row} := by
  refine ⟨fun r hr => Finset.mem_singleton.mp hr ▸ h, fun r hr r' hr' _ => ?_⟩
  rw [Finset.mem_singleton.mp hr, Finset.mem_singleton.mp hr']

theorem map_cell (columns : List String) (row : TableRow) (hnodup : columns.Nodup)
    (hlen : row.length = columns.length) : columns.map (cell columns row) = row := by
  apply List.ext_getElem
  · rw [List.length_map, hlen]
  · intro i hi hi'
    rw [List.length_map] at hi
    rw [List.getElem_map, cell, hnodup.idxOf_getElem i hi, List.getElem?_eq_getElem hi']
    rfl

theorem keyEquals_iff (k k' : List Cell) (h : Cell.null ∉ k) : keyEquals k k' = true ↔ k = k' := by
  simp [keyEquals, h]

theorem keyEquals_given (k k' : List Cell) (h : Cell.null ∉ k') :
    keyEquals k k' = true ↔ k = k' := by
  constructor
  · intro he
    rw [keyEquals, Bool.and_eq_true, decide_eq_true_eq] at he
    exact he.1
  · intro he
    exact (keyEquals_iff k k' (he ▸ h)).mpr he

theorem keyEquals_null (k k' : List Cell) (h : Cell.null ∈ k') : keyEquals k k' = false := by
  by_cases he : k = k'
  · simp [keyEquals, he, h]
  · simp [keyEquals, he]

theorem assign_columns (columns keys : List String) (row r : TableRow) (hnodup : columns.Nodup)
    (hrow : row.length = columns.length)
    (hk : keyOf columns keys r = keyOf columns keys row) :
    (columns.map (fun c => if c ∈ columns.filter (fun c => c ∉ keys) then cell columns row c
      else cell columns r c)) = row := by
  refine Eq.trans (List.map_congr_left fun c hc => ?_) (map_cell columns row hnodup hrow)
  by_cases hkey : c ∈ keys
  · rw [if_neg (by simp [hkey])]
    exact List.map_inj_left.mp hk c hkey
  · rw [if_pos (by simp [hc, hkey])]

/-- On a table with non-null keys, the statement is the upsert by key. -/
theorem executeUpsert_eq (columns keys : List String) (hnodup : columns.Nodup) (row : TableRow)
    (hrow : row.length = columns.length) (table : Finset TableRow)
    (ht : ∀ r ∈ table, RowOk columns keys r) :
    executeUpsert columns columns keys (columns.filter (fun c => c ∉ keys)) row table =
      upsert (keyOf columns keys) row table := by
  have hconflict : table.filter (fun r => keyEquals (keyOf columns keys r) (keyOf columns keys row)) =
      table.filter (fun r => keyOf columns keys r = keyOf columns keys row) := by
    apply Finset.filter_congr
    intro r hr
    exact keyEquals_iff _ _ (ht r hr).key_present
  unfold executeUpsert
  simp only [map_cell columns row hnodup hrow, hconflict]
  by_cases hnone : table.filter (fun r => keyOf columns keys r = keyOf columns keys row) = ∅
  · rw [if_pos hnone, upsert_new]
    intro r hr
    exact Finset.filter_eq_empty_iff.mp hnone hr
  · rw [if_neg hnone]
    have himage : (table.filter (fun r => keyOf columns keys r = keyOf columns keys row)).image
        (fun r => columns.map (fun c => if c ∈ columns.filter (fun c => c ∉ keys)
          then cell columns row c else cell columns r c)) = {row} := by
      obtain ⟨r, hr⟩ := Finset.nonempty_iff_ne_empty.mpr hnone
      apply Finset.eq_singleton_iff_unique_mem.mpr
      constructor
      · refine Finset.mem_image.mpr ⟨r, hr, ?_⟩
        exact assign_columns columns keys row r hnodup hrow (Finset.mem_filter.mp hr).2
      · intro x hx
        obtain ⟨r', hr', rfl⟩ := Finset.mem_image.mp hx
        exact assign_columns columns keys row r' hnodup hrow (Finset.mem_filter.mp hr').2
    rw [himage, upsert, without, Finset.union_comm, ← Finset.insert_eq]
    congr 1
    ext x
    simp only [Finset.mem_sdiff, Finset.mem_filter]
    tauto

theorem executeDelete_eq (columns keys : List String) (k : List Cell) (table : Finset TableRow)
    (ht : ∀ r ∈ table, RowOk columns keys r) :
    executeDelete columns keys k table = without (keyOf columns keys) k table := by
  unfold executeDelete without
  apply Finset.filter_congr
  intro r hr
  rw [keyEquals_iff _ _ (ht r hr).key_present]

end CDC.SinkDatabase
