import Mathlib.Data.Int.Notation
import CdcConnector.SinkModel

/-!
# The statements of the Postgres sink

The texts of the upsert and the delete statement, and the client that
prepares and executes them. A parameter is converted when it is sent, so its
conversion may fail or panic inside the call.
-/

set_option autoImplicit false

namespace CDC.SinkStatements
open CDC.Fallible CDC.Event CDC.SinkModel

inductive Cell where
  | null
  | text (s : String)
  | int4 (n : Int32)
  | int8 (n : Int64)
  | bool (b : Bool)
  | timestamp (t : Int64)
  deriving DecidableEq

/-- The first and the last microsecond, from the Postgres epoch, of the years
the date library can represent. -/
def minMicros : ℤ := (-8334601228800 - 946684800) * 1000000

def maxMicros : ℤ := (8210266876799 - 946684800) * 1000000 + 999999

def representable (t : Int64) : Bool := minMicros ≤ t.toInt && t.toInt ≤ maxMicros

def toSql : PgValue → Outcome String Cell
  | .text s => .ok (.text s)
  | .int4 n => .ok (.int4 n)
  | .int8 n => .ok (.int8 n)
  | .bool b => .ok (.bool b)
  | .timestamp t => if representable t then .ok (.timestamp t) else panicked
  | .null => .ok .null
  | .toasted => fail "Toasted value was not substituted"

/-- A prepared statement is known by its text. -/
structure Statement where
  text : String
  deriving DecidableEq

class PostgresClient (D : Type) where
  prepare : String → D → D × Except String Unit
  execute : Statement → List (Outcome String Cell) → D → D × Outcome String Unit

def written (suffix : ℕ → String) (xs : List String) : String :=
  String.join (xs.zipIdx.map (fun (x, i) => x ++ suffix i))

def param (i : ℕ) : String := "$" ++ toString (i + 1)

namespace UpsertStatement

def assignments (rows keys : List String) : String :=
  String.join (rows.zipIdx.map (fun (c, i) =>
    if keys.contains c then ""
    else c ++ " = EXCLUDED." ++ c ++ if i < rows.length - 1 then "," else ""))

def genStr (table : String) (rows keys : List String) : String :=
  "INSERT INTO " ++ table ++ " (" ++
    written (fun i => if i < rows.length - 1 then "," else "") rows ++ ") VALUES (" ++
    written (fun i => if i < rows.length - 1 then "," else "") ((List.range rows.length).map param) ++
    ")" ++ " ON CONFLICT (" ++
    written (fun i => if i < keys.length - 1 then ", " else "") keys ++
    if rows.length ≠ keys.length then ") DO UPDATE SET " ++ assignments rows keys
    else ") DO NOTHING"

end UpsertStatement

namespace DeleteStatement

def genStr (table : String) (keys : List String) : String :=
  "DELETE FROM " ++ table ++ " WHERE " ++
    String.join (keys.zipIdx.map (fun (key, i) =>
      key ++ " = " ++ param i ++ if i < keys.length - 1 then " AND " else ""))

end DeleteStatement

example : UpsertStatement.genStr "t" ["a", "b", "c"] ["a"] =
    "INSERT INTO t (a,b,c) VALUES ($1,$2,$3) ON CONFLICT (a) DO UPDATE SET " ++
      "b = EXCLUDED.b,c = EXCLUDED.c" := by
  decide +kernel

example : DeleteStatement.genStr "t" ["a", "b"] = "DELETE FROM t WHERE a = $1 AND b = $2" := by
  decide +kernel

section Prepare
variable {D : Type} [PostgresClient D]

def prepareStatement (text : String) (client : D) : D × Outcome SinkError Statement :=
  match PostgresClient.prepare text client with
  | (client, .ok ()) => (client, .ok ⟨text⟩)
  | (client, .error e) => (client, fail (.platform e))

def UpsertStatement.new (table : String) (rows keys : List String) (client : D) :
    D × Outcome SinkError Statement :=
  prepareStatement (UpsertStatement.genStr table rows keys) client

def DeleteStatement.new (table : String) (keys : List String) (client : D) :
    D × Outcome SinkError Statement :=
  prepareStatement (DeleteStatement.genStr table keys) client

theorem prepareStatement_text (text : String) (client client' : D) (stmt : Statement)
    (h : prepareStatement text client = (client', .ok stmt)) : stmt.text = text := by
  unfold prepareStatement at h
  split at h
  · cases h
    rfl
  · exact nomatch (Prod.mk.inj h).2

end Prepare

end CDC.SinkStatements
