import CdcConnector.MergeToasted
import CdcConnector.SinkTable
import CdcConnector.StatementTexts

/-!
# The parameters of a delete

The decoder sends the values of the key columns alone; the sink filters what
it receives by the key columns' positions in the full row. The two agree
exactly when the key columns are the first columns.
-/

set_option autoImplicit false

namespace CDC.DeleteBinding
open CDC.Fallible CDC.Event CDC.SinkStatements CDC.PostgresSink CDC.StatementCache
open CDC.KeyTuple CDC.MergeToasted CDC.SinkTable

def condition (keys : List String) : List String :=
  keys.zipIdx.map (fun (k, j) => k ++ " = " ++ param j)

theorem delete_text (table : String) (keys : List String) :
    DeleteStatement.genStr table keys =
      "DELETE FROM " ++ table ++ " WHERE " ++ " AND ".intercalate (condition keys) := by
  unfold DeleteStatement.genStr condition
  rw [← StatementTexts.separated " AND " (fun (k, j) => k ++ " = " ++ param j) keys.length 0 keys
    (by omega)]

theorem keysRel_length (rel : Relation) :
    (extractKeysRel rel).length = (keyIndexesFrom 0 rel.fields).length := by
  have hnames := congrArg List.length (keyNames_from [] rel.fields)
  rw [List.length_map, List.length_map] at hnames
  exact hnames

/-- The sink's filter keeps a list of key values exactly when the first
columns are the keys, as many as there are values. -/
theorem keptValues_iff (rel : Relation) (old : List PgValue)
    (hlen : old.length = (extractKeysRel rel).length) :
    keptValues rel old = old ↔ leadingKeys rel = true := by
  rw [leadingKeys, List.all_eq_true]
  constructor
  · intro hkept i hi
    by_contra hid
    have hfewer := kept_fewer (extractKeysPos rel.fields) old i
      (by rw [hlen]; exact List.mem_range.mp hi) (by simpa using hid)
    rw [keptValues] at hkept
    rw [hkept] at hfewer
    omega
  · intro hlead
    apply kept_all
    intro i _ hi
    exact hlead i (List.mem_range.mpr (by omega))

section Delete
variable {D : Type} [PostgresClient D]

/-- For every relation with the default identity, in any sink that follows
the relations it knows: the bound values are the key values, one for each
placeholder of the condition, exactly when the key columns come first. -/
theorem delete_binds_iff (rel : Relation) (hid : rel.replicaId = .keys)
    (known : Oid → Option Relation) (hknown : known rel.relationOid = some rel) (s s' : Sink D)
    (hs : InSync s known) (oldRow : List PgValue) (hlen : oldRow.length = rel.fields.length)
    (stmt : Statement) (params : List PgValue)
    (hp : prepareEvent ⟨.delete (keyPart rel.fields oldRow), rel.relationOid⟩ s =
      (s', .ok (stmt, params))) :
    stmt.text = "DELETE FROM " ++ rel.name ++ " WHERE " ++
        " AND ".intercalate (condition (extractKeysRel rel)) ∧
      ((params = keyPart rel.fields oldRow ∧ params.length = (extractKeysRel rel).length) ↔
        leadingKeys rel = true) := by
  have hpart : (keyPart rel.fields oldRow).length = (extractKeysRel rel).length := by
    rw [keyPart_length rel.fields oldRow 0 hlen, keysRel_length]
  obtain ⟨hsync, htext⟩ := deleteStatement_sync rel.relationOid s known hs
  simp only [prepareEvent, mergeToasted] at hp
  obtain ⟨st, hget, hrest⟩ := (bind_ok_iff _ _ _).mp (congrArg Prod.snd hp)
  obtain ⟨relation, hrel, hst⟩ := htext st hget
  rw [hknown, Option.some.injEq] at hrel
  subst hrel
  have hident : (deleteStatement rel.relationOid s).1.relationCache.identities rel.relationOid =
      some (.keys (extractKeysPos rel.fields)) := by
    rw [hsync.relations]
    simp only [RelationCache.fromRels, hknown, Option.map_some, extractKeyIdentity, hid]
  simp only [hident, deleteParams, ok_bind, Except.ok.injEq, Prod.mk.injEq] at hrest
  obtain ⟨rfl, rfl⟩ := hrest
  refine ⟨?_, ?_⟩
  · rw [hst, deleteText, delete_text]
  · rw [← keptValues_iff rel _ hpart]
    constructor
    · exact fun h => h.1
    · intro h
      exact ⟨h, (congrArg List.length h).trans hpart⟩

end Delete

/-- The key value 7 of a table with its key last is not bound. -/
theorem key_value_dropped :
    StatementTexts.keyAtEnd.replicaId = .keys ∧
      keyPart StatementTexts.keyAtEnd.fields [PgValue.text "a", .int4 7] = [.int4 7] ∧
      ∃ s', prepareEvent ⟨.delete [.int4 7], 1⟩
          (new Permissive.mk (fun _ => some StatementTexts.keyAtEnd)) =
        (s', .ok (⟨deleteText StatementTexts.keyAtEnd⟩, [])) :=
  ⟨rfl, rfl, _, rfl⟩

theorem leading_key_bound :
    ∃ s' stmt params, prepareEvent ⟨.delete [.int4 7], 1⟩
        (new Permissive.mk (fun _ => some wide)) = (s', .ok (stmt, params)) ∧
      stmt.text = "DELETE FROM " ++ wide.name ++ " WHERE " ++
        " AND ".intercalate (condition (extractKeysRel wide)) ∧
      params = [.int4 7] ∧ params.length = (extractKeysRel wide).length := by
  refine ⟨_, ⟨deleteText wide⟩, [.int4 7], rfl, ?_⟩
  have h := delete_binds_iff wide rfl (fun _ => some wide) rfl
    (new Permissive.mk (fun _ => some wide)) _ (inSync_new _ _) [.int4 7, .int4 8] rfl
    ⟨deleteText wide⟩ [.int4 7] rfl
  exact ⟨h.1, h.2.mpr (by decide)⟩

end CDC.DeleteBinding
