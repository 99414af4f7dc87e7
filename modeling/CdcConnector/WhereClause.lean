import CdcConnector.DeleteBinding
import CdcConnector.Kleene

/-!
# The rows a delete selects

The condition of the delete compares every key column with its placeholder,
in three-valued logic. Under the full identity every column is compared with
the old row, and the row is selected, alone, exactly when it has no null.
-/

set_option autoImplicit false

namespace CDC.WhereClause
open CDC.Fallible CDC.Event CDC.Kleene CDC.SinkStatements CDC.PostgresSink CDC.SinkDatabase
open CDC.SourceTable CDC.StatementCache CDC.StatementTexts

/-- A column is compared with a placeholder. -/
structure Comparison where
  column : String
  placeholder : ℕ
  deriving DecidableEq

namespace Comparison

def text (c : Comparison) : String := c.column ++ " = " ++ param c.placeholder

def truth (columns : List String) (values : List Cell) (row : TableRow) (c : Comparison) : Truth :=
  equal .null (cell columns row c.column) ((values[c.placeholder]?).getD .null)

end Comparison

def deleteWhere (keys : List String) : List Comparison := keys.zipIdx.map (fun (k, j) => ⟨k, j⟩)

def whereTruth (columns : List String) (values : List Cell) (row : TableRow)
    (condition : List Comparison) : Truth :=
  conj (condition.map (Comparison.truth columns values row))

def selected (columns : List String) (values : List Cell) (condition : List Comparison)
    (t : Finset TableRow) : Finset TableRow :=
  t.filter (fun row => whereTruth columns values row condition = some true)

theorem delete_where_text (table : String) (keys : List String) :
    DeleteStatement.genStr table keys = "DELETE FROM " ++ table ++ " WHERE " ++
      " AND ".intercalate ((deleteWhere keys).map Comparison.text) := by
  rw [DeleteBinding.delete_text, DeleteBinding.condition, deleteWhere, List.map_map]
  rfl

theorem whereTruth_delete (columns keys : List String) (values : List Cell) (row : TableRow)
    (hlen : values.length = keys.length) :
    whereTruth columns values row (deleteWhere keys) =
      conj (List.zipWith (equal .null) (keyOf columns keys row) values) := by
  rw [whereTruth, deleteWhere, List.map_map]
  congr 1
  apply List.ext_getElem
  · simp [keyOf, hlen]
  · intro j hj hj'
    simp only [List.length_zipWith, keyOf, List.length_map] at hj'
    have hv : j < values.length := by omega
    simp [Comparison.truth, keyOf, hv]

theorem whereTruth_iff (columns keys : List String) (values : List Cell) (row : TableRow)
    (hlen : values.length = keys.length) :
    whereTruth columns values row (deleteWhere keys) = some true ↔
      keyOf columns keys row = values ∧ .null ∉ values := by
  rw [whereTruth_delete columns keys values row hlen]
  apply equals_true_iff
  rw [keyOf, List.length_map, hlen]

theorem keyOf_full (rel : Relation) (hall : rel.fields.all Field.isKey = true)
    (hnodup : (extractFieldsNames rel).Nodup) (row : TableRow)
    (hlen : row.length = rel.fields.length) :
    keyOf (extractFieldsNames rel) (extractKeysRel rel) row = row := by
  have hkeys : extractKeysRel rel = extractFieldsNames rel := by
    rw [extractKeysRel_eq, List.filter_eq_self.mpr (List.all_eq_true.mp hall), extractFieldsNames]
  rw [keyOf, hkeys, map_cell _ row hnodup (by rw [extractFieldsNames, List.length_map, hlen])]

/-- The parameters can be bound, and the condition selects this row of the
table and no other. A condition without a comparison is none. -/
def SelectsOnly (rel : Relation) (params : List PgValue) (t : Finset TableRow) (r : TableRow) :
    Prop :=
  deleteWhere (extractKeysRel rel) ≠ [] ∧ ∃ values, convert (params.map toSql) = .ok values ∧
    selected (extractFieldsNames rel) values (deleteWhere (extractKeysRel rel)) t = {r}

theorem selectsOnly_iff (rel : Relation) (hall : rel.fields.all Field.isKey = true)
    (hnodup : (extractFieldsNames rel).Nodup) (t : Finset TableRow)
    (ht : ∀ row ∈ t, row.length = rel.fields.length) (r : TableRow) (hr : r ∈ t) :
    SelectsOnly rel (r.map value) t r ↔
      rel.fields ≠ [] ∧ .null ∉ r ∧ r.all sendable = true := by
  have hcount : (extractKeysRel rel).length = rel.fields.length := by
    rw [extractKeysRel_eq, List.length_map, (keys_all_iff rel.fields).mpr hall]
  have hsome : deleteWhere (extractKeysRel rel) ≠ [] ↔ rel.fields ≠ [] := by
    rw [not_iff_not, ← List.length_eq_zero_iff, ← List.length_eq_zero_iff, deleteWhere,
      List.length_map, List.length_zipIdx, hcount]
  have htruth : ∀ row ∈ t, (whereTruth (extractFieldsNames rel) r row
      (deleteWhere (extractKeysRel rel)) = some true ↔ row = r ∧ .null ∉ r) := by
    intro row hrow
    rw [whereTruth_iff _ _ r row (by rw [ht r hr, hcount]),
      keyOf_full rel hall hnodup row (ht row hrow)]
  rw [SelectsOnly, hsome, convert_row]
  apply and_congr_right
  intro _
  constructor
  · rintro ⟨values, hvalues, hsel⟩
    split_ifs at hvalues with hsend
    · cases hvalues
      have hmem : r ∈ selected (extractFieldsNames rel) r (deleteWhere (extractKeysRel rel)) t := by
        rw [hsel]
        exact Finset.mem_singleton_self r
      exact ⟨((htruth r hr).mp (Finset.mem_filter.mp hmem).2).2, hsend⟩
    · cases hvalues
  · rintro ⟨hnull, hsend⟩
    refine ⟨r, if_pos hsend, ?_⟩
    ext row
    rw [selected, Finset.mem_filter, Finset.mem_singleton]
    constructor
    · rintro ⟨hrow, htrue⟩
      exact ((htruth row hrow).mp htrue).1
    · rintro rfl
      exact ⟨hr, (htruth row hr).mpr ⟨rfl, hnull⟩⟩

section Delete
variable {D : Type} [PostgresClient D]

/-- For every relation with the full identity, in any sink that follows the
relations it knows: the delete of a row selects that row, alone, exactly when
the row has a column, no null, and no time the date library cannot
represent. -/
theorem full_delete_iff (rel : Relation) (hid : rel.replicaId = .row)
    (hall : rel.fields.all Field.isKey = true) (hnodup : (extractFieldsNames rel).Nodup)
    (known : Oid → Option Relation) (hknown : known rel.relationOid = some rel) (s s' : Sink D)
    (hs : InSync s known) (t : Finset TableRow) (ht : ∀ row ∈ t, row.length = rel.fields.length)
    (r : TableRow) (hr : r ∈ t) (stmt : Statement) (params : List PgValue)
    (hp : prepareEvent ⟨.delete (r.map value), rel.relationOid⟩ s = (s', .ok (stmt, params))) :
    stmt.text = "DELETE FROM " ++ rel.name ++ " WHERE " ++
        " AND ".intercalate ((deleteWhere (extractKeysRel rel)).map Comparison.text) ∧
      (SelectsOnly rel params t r ↔ rel.fields ≠ [] ∧ .null ∉ r ∧ r.all sendable = true) := by
  obtain ⟨hsync, htext⟩ := deleteStatement_sync rel.relationOid s known hs
  simp only [prepareEvent, mergeToasted] at hp
  obtain ⟨st, hget, hrest⟩ := (bind_ok_iff _ _ _).mp (congrArg Prod.snd hp)
  obtain ⟨relation, hrel, hst⟩ := htext st hget
  rw [hknown, Option.some.injEq] at hrel
  subst hrel
  have hident : (deleteStatement rel.relationOid s).1.relationCache.identities rel.relationOid =
      some .full := by
    rw [hsync.relations]
    simp only [RelationCache.fromRels, hknown, Option.map_some, extractKeyIdentity, hid]
  simp only [hident, deleteParams, ok_bind, Except.ok.injEq, Prod.mk.injEq] at hrest
  obtain ⟨rfl, rfl⟩ := hrest
  exact ⟨by rw [hst, deleteText, delete_where_text], selectsOnly_iff rel hall hnodup t ht r hr⟩

end Delete

def fullIdentity : Relation :=
  ⟨1, "u", "p", [⟨true, "a", .int4⟩, ⟨true, "b", .text⟩], .row⟩

theorem row_with_null_stays :
    fullIdentity.replicaId = .row ∧ fullIdentity.fields.all Field.isKey = true ∧
      deleteText fullIdentity = "DELETE FROM u WHERE a = $1 AND b = $2" ∧
      (∃ s', prepareEvent ⟨.delete ([Cell.int4 1, .null].map value), 1⟩
          (new Permissive.mk (fun _ => some fullIdentity)) =
        (s', .ok (⟨deleteText fullIdentity⟩, [.int4 1, .null]))) ∧
      convert ([PgValue.int4 1, .null].map toSql) = .ok [.int4 1, .null] ∧
      selected (extractFieldsNames fullIdentity) [.int4 1, .null]
        (deleteWhere (extractKeysRel fullIdentity)) {[.int4 1, .null]} = ∅ :=
  ⟨rfl, rfl, by decide +kernel, ⟨_, rfl⟩, rfl, by decide +kernel⟩

theorem plain_row_selected :
    ∃ s' stmt params, prepareEvent ⟨.delete ([Cell.int4 1, .text "x"].map value), 1⟩
        (new Permissive.mk (fun _ => some fullIdentity)) = (s', .ok (stmt, params)) ∧
      SelectsOnly fullIdentity params {[.int4 1, .text "x"], [.int4 1, .null]}
        [.int4 1, .text "x"] := by
  refine ⟨_, ⟨deleteText fullIdentity⟩, [.int4 1, .text "x"], rfl, ?_⟩
  have h := full_delete_iff fullIdentity rfl (by decide) (by decide) (fun _ => some fullIdentity) rfl
    (new Permissive.mk (fun _ => some fullIdentity)) _ (inSync_new _ _)
    {[.int4 1, .text "x"], [.int4 1, .null]} (by decide) [.int4 1, .text "x"] (by decide)
    ⟨deleteText fullIdentity⟩ [.int4 1, .text "x"] rfl
  exact h.2.mpr (by decide)

end CDC.WhereClause
