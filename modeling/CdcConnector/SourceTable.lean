import CdcConnector.PostgresSink
import CdcConnector.SinkDatabase

/-!
# The source table

The operations of the source on a table with a key, and the events they
become: an update sends the old key only when the key changes, and may leave
unchanged large values out.
-/

set_option autoImplicit false

namespace CDC.SourceTable
open CDC.Fallible CDC.Event CDC.SinkStatements CDC.PostgresSink CDC.KeyedTable CDC.SinkDatabase

def value : Cell → PgValue
  | .null => .null
  | .text s => .text s
  | .int4 n => .int4 n
  | .int8 n => .int8 n
  | .bool b => .bool b
  | .timestamp t => .timestamp t

def sendable : Cell → Bool
  | .timestamp t => representable t
  | _ => true

/-- The source may leave unchanged large values of an update out. -/
inductive SourceOp where
  | insert (row : TableRow)
  | update (old new : TableRow) (unchanged : List Bool)
  | delete (old : TableRow)
  deriving DecidableEq

def sourceStep (t : Finset TableRow) : SourceOp → Finset TableRow
  | .insert row => insert row t
  | .update old new _ => insert new (t.erase old)
  | .delete old => t.erase old

def sent (row : TableRow) (unchanged : List Bool) : List PgValue :=
  List.zipWith (fun c u => if u then .toasted else value c) row unchanged

section Relation
variable (rel : Relation)

abbrev keyCells (row : TableRow) : List Cell :=
  keyOf (extractFieldsNames rel) (extractKeysRel rel) row

abbrev RelRow (row : TableRow) : Prop := RowOk (extractFieldsNames rel) (extractKeysRel rel) row

abbrev RelTable (t : Finset TableRow) : Prop :=
  TableOk (extractFieldsNames rel) (extractKeysRel rel) t

def Valid (t : Finset TableRow) : SourceOp → Prop
  | .insert row => RelRow rel row ∧ ∀ r ∈ t, keyCells rel r ≠ keyCells rel row
  | .update old new unchanged => old ∈ t ∧ RelRow rel new ∧
      (∀ r ∈ t, r ≠ old → keyCells rel r ≠ keyCells rel new) ∧
      unchanged.length = new.length ∧
      ∀ i < unchanged.length, unchanged[i]? = some true → new[i]? = old[i]?
  | .delete old => old ∈ t

instance (t : Finset TableRow) : (op : SourceOp) → Decidable (Valid rel t op)
  | .insert _ => inferInstanceAs (Decidable (_ ∧ _))
  | .update _ _ _ => inferInstanceAs (Decidable (_ ∧ _ ∧ _ ∧ _ ∧ _))
  | .delete _ => inferInstanceAs (Decidable (_ ∈ t))

/-- The old tuple of an update carries the old key when the key changes. -/
def toEvent : SourceOp → ChangeEvent
  | .insert row => ⟨.insert (row.map value), rel.relationOid⟩
  | .update old new unchanged =>
    ⟨.update (if keyCells rel old = keyCells rel new then [] else (keyCells rel old).map value)
      (sent new unchanged), rel.relationOid⟩
  | .delete old => ⟨.delete ((keyCells rel old).map value), rel.relationOid⟩

end Relation

theorem toSql_value (c : Cell) :
    toSql (value c) = if sendable c then .ok c else panicked := by
  cases c with
  | timestamp t => rfl
  | _ => rfl

theorem convert_row (row : TableRow) :
    convert ((row.map value).map toSql) = if row.all sendable then .ok row else panicked := by
  induction row with
  | nil => rfl
  | cons c row ih =>
    simp only [List.map_cons, convert, toSql_value, ih]
    have hall : (c::row).all sendable = true ↔ sendable c = true ∧ row.all sendable = true := by
      rw [List.all_cons, Bool.and_eq_true]
    by_cases hc : sendable c = true
    · by_cases hr : row.all sendable = true
      · rw [if_pos hc, if_pos hr, if_pos (hall.mpr ⟨hc, hr⟩)]
        rfl
      · rw [if_pos hc, if_neg hr, if_neg (fun h => hr (hall.mp h).2)]
        rfl
    · rw [if_neg hc, if_neg (fun h => hc (hall.mp h).1)]
      rfl

theorem sent_plain (row : TableRow) (unchanged : List Bool) (hlen : unchanged.length = row.length)
    (h : unchanged.contains true = false) : sent row unchanged = row.map value := by
  induction row generalizing unchanged with
  | nil => rfl
  | cons c row ih =>
    cases unchanged with
    | nil => cases hlen
    | cons u unchanged =>
      simp only [List.contains_cons, Bool.or_eq_false_iff] at h
      have hu : u = false := by cases u <;> simp_all
      have ih := ih unchanged (by simpa using hlen) h.2
      simp only [sent] at ih
      simp [sent, hu, ih]

theorem sent_toasted (row : TableRow) (unchanged : List Bool)
    (hlen : unchanged.length = row.length) (h : unchanged.contains true = true) :
    .toasted ∈ sent row unchanged := by
  induction row generalizing unchanged with
  | nil =>
    rw [List.eq_nil_of_length_eq_zero hlen] at h
    cases h
  | cons c row ih =>
    cases unchanged with
    | nil => cases hlen
    | cons u unchanged =>
      cases u with
      | true => simp [sent]
      | false =>
        have ih := ih unchanged (by simpa using hlen) (by simpa using h)
        simp only [sent] at ih
        simp [sent, ih]

theorem sent_length (row : TableRow) (unchanged : List Bool)
    (hlen : unchanged.length = row.length) : (sent row unchanged).length = row.length := by
  simp [sent, hlen]

theorem plain_value (row : TableRow) : PgValue.toasted ∉ row.map value := by
  intro h
  obtain ⟨c, _, hc⟩ := List.mem_map.mp h
  cases c <;> cases hc

theorem merge_whole (old : List PgValue) (row : TableRow) (unchanged : List Bool)
    (hlen : unchanged.length = row.length) (h : unchanged.contains true = false) :
    mergeToasted (.update old (sent row unchanged)) = .ok (.update old (row.map value)) := by
  rw [sent_plain row unchanged hlen h, mergeToasted,
    mergeToastedFrom_plain old 0 _ (plain_value row)]
  rfl

theorem merge_short (row : TableRow) (unchanged : List Bool)
    (hlen : unchanged.length = row.length) (h : unchanged.contains true = true) :
    mergeToasted (.update [] (sent row unchanged)) = .error .mk := by
  rw [mergeToasted, mergeToastedFrom_empty 0 _ (sent_toasted row unchanged hlen h)]
  rfl

section Step
variable (rel : Relation) (t : Finset TableRow) (ht : RelTable rel t)
include ht

theorem sourceStep_ok (op : SourceOp) (h : Valid rel t op) : RelTable rel (sourceStep t op) := by
  have herase : ∀ old, RelTable rel (t.erase old) := fun old =>
    ⟨fun r hr => ht.rows r (Finset.mem_of_mem_erase hr),
      keyed_subset _ ht.keyed (Finset.erase_subset old t)⟩
  have hinsert : ∀ u row, RelTable rel u → RelRow rel row →
      (∀ r ∈ u, keyCells rel r ≠ keyCells rel row) → RelTable rel (insert row u) := by
    intro u row hu hrow hnew
    refine ⟨fun r hr => ?_, keyed_insert _ row hu.keyed hnew⟩
    rcases Finset.mem_insert.mp hr with rfl | hr
    · exact hrow
    · exact hu.rows r hr
  cases op with
  | insert row => exact hinsert t row ht h.1 h.2
  | update old new unchanged =>
    obtain ⟨_, hnew, hkeys, _⟩ := h
    refine hinsert _ new (herase old) hnew (fun r hr => ?_)
    exact hkeys r (Finset.mem_of_mem_erase hr) (Finset.ne_of_mem_erase hr)
  | delete old => exact herase old

theorem update_takes_key (old new : TableRow) (hold : old ∈ t)
    (hk : keyCells rel new ≠ keyCells rel old) :
    ∀ x ∈ insert new (t.erase old), keyCells rel x ≠ keyCells rel old := by
  intro x hx hkey
  rcases Finset.mem_insert.mp hx with rfl | hx
  · exact hk hkey
  · exact Finset.ne_of_mem_erase hx
      (ht.keyed x (Finset.mem_of_mem_erase hx) old hold hkey)

end Step

def users : Relation :=
  ⟨1, "users", "public", [⟨true, "id", .int4⟩, ⟨false, "name", .text⟩], .keys⟩

end CDC.SourceTable
