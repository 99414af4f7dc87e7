import CdcConnector.PayloadPanics
import CdcConnector.ProducerRestarts

/-!
# The types of what is committed

A row is decoded with an entry of the relation map and published under that
entry. Whatever the stream holds and whatever fails, a committed row fits the
relation it is published under: it names its oid, and its values stand in the
first columns, each in one of its own kind.
-/

set_option autoImplicit false

namespace CDC.TypedLog
open CDC.Fallible CDC.Event CDC.Decoder CDC.RelationDecoder CDC.TupleDecoder CDC.TupleSyntax
open CDC.RowDecoder CDC.ProducerModel CDC.TransactionLog CDC.WalReader CDC.SourceStream CDC.KafkaLoop
open CDC.ProducerLog CDC.LsnTopic CDC.ProducerRestarts

def Fits (toasted : Bool) (kind : FieldKind) : PgValue → Prop
  | .null => True
  | .text _ => True
  | .int4 _ => kind = .int4
  | .int8 _ => kind = .int8
  | .bool _ => kind = .bool
  | .timestamp _ => kind = .timestamp
  | .toasted => toasted = true

/-- The values stand in the first columns, one in each. There may be fewer values
than columns, or none: a message counts its columns itself. -/
def PrefixFits {F : Type} [FieldAccess F] (toasted : Bool) (fields : List F) (row : List PgValue) :
    Prop :=
  List.Forall₂ (fun field v => Fits toasted (FieldAccess.getKind field) v) (fields.take row.length)
    row

/-- An old row holds the first of the keys, or of all columns, as the replica
identity says. -/
def OldFits (relation : Relation) (old : List PgValue) : Prop :=
  match relation.replicaId with
  | .keys => PrefixFits false (keyFields relation.fields) old
  | .row => PrefixFits false relation.fields old

def OpFits (relation : Relation) : Op → Prop
  | .insert row => PrefixFits false relation.fields row
  | .update old row => OldFits relation old ∧ PrefixFits true relation.fields row
  | .delete old => OldFits relation old

structure WellTyped (relation : Relation) (event : ChangeEvent) : Prop where
  oid : event.rel = relation.relationOid
  op : OpFits relation event.op

section Rows
variable {F : Type} [FieldAccess F]

theorem prefixFits_nil (toasted : Bool) (fields : List F) : PrefixFits toasted fields [] := by
  rw [PrefixFits, List.length_nil, List.take_zero]
  exact .nil

theorem prefixFits_snoc {toasted : Bool} {fields : List F} {cols : List PgValue} {field : F}
    {v : PgValue} (h : PrefixFits toasted fields cols) (hfield : fields[cols.length]? = some field)
    (hv : Fits toasted (FieldAccess.getKind field) v) : PrefixFits toasted fields (cols ++ [v]) := by
  rw [PrefixFits, List.length_append, List.length_singleton, List.take_add_one, hfield]
  exact List.rel_append h (.cons hv .nil)

theorem itemOf_fits {isUpdate : Bool} {kind : FieldKind} {item : Bytes} {v : PgValue}
    (h : ItemOf isUpdate kind item v) : Fits isUpdate kind v := by
  cases h with
  | null => trivial
  | toasted h => exact h
  | text len s _ _ => trivial
  | binary len payload v _ _ hv =>
    cases v with
    | null => trivial
    | text s => trivial
    | toasted => exact hv.elim
    | int4 n => exact hv.1
    | int8 n => exact hv.1
    | bool b => exact hv.1
    | timestamp t => exact hv.1

theorem parseValue_fits {data : Bytes} {field : F} {isUpdate : Bool} {v : PgValue} {l : ℕ}
    (h : parseValue data field isUpdate = .ok (v, l)) :
    Fits isUpdate (FieldAccess.getKind field) v := by
  obtain ⟨item, rest, _, _, hitem⟩ := (parseValue_ok_iff data field isUpdate v l).mp h
  exact itemOf_fits hitem

theorem index_some {α : Type} {xs : List α} {i : ℕ} {x : α}
    (h : (index xs i : Decoded α) = .ok x) : xs[i]? = some x := by
  rw [← List.head?_drop, index_cons_drop h, List.head?_cons]

theorem anyCols_fits (data : Bytes) (fields : List F) (isUpdate : Bool) (left i lastPos : ℕ)
    (cols vals : List PgValue) (n : ℕ) (hi : i = cols.length)
    (hcols : PrefixFits isUpdate fields cols)
    (h : anyCols data fields isUpdate left i lastPos cols = .ok (vals, n)) :
    PrefixFits isUpdate fields vals := by
  induction left generalizing i lastPos cols with
  | zero =>
    cases h
    exact hcols
  | succ left ih =>
    simp only [anyCols, bind_ok_iff] at h
    obtain ⟨rest, _, field, hfield, ⟨v, l⟩, hv, hrec⟩ := h
    subst hi
    apply ih _ _ (cols ++ [v]) (by simp) ?_ hrec
    exact prefixFits_snoc hcols (index_some hfield) (parseValue_fits hv)

end Rows

theorem keyCols_fits (data : Bytes) (fields : List KeyField) (indexes : List ℕ)
    (total left i keyIdx lastPos : ℕ) (cols vals : List PgValue) (n : ℕ)
    (hidx : keyIdx = cols.length) (hcols : PrefixFits false fields cols)
    (h : keyCols data fields indexes total left i keyIdx lastPos cols = .ok (vals, n)) :
    PrefixFits false fields vals := by
  induction left generalizing i keyIdx lastPos cols with
  | zero =>
    cases h
    exact hcols
  | succ left ih =>
    simp only [keyCols, bind_ok_iff] at h
    obtain ⟨nextKey, _, h⟩ := h
    split_ifs at h with hkey
    · simp only [bind_ok_iff] at h
      obtain ⟨rest, _, field, hfield, ⟨v, l⟩, hv, lastKey, _, h⟩ := h
      subst hidx
      have hnext := prefixFits_snoc hcols (index_some hfield) (parseValue_fits hv)
      dsimp only at h
      split_ifs at h with hlast
      · exact ih _ _ _ _ (by simp) hnext h
      · simp only [bind_ok_iff, pure_ok, Except.ok.injEq, Prod.mk.injEq] at h
        obtain ⟨size, _, rfl, _⟩ := h
        exact hnext
    · exact ih _ _ _ _ hidx hcols h

theorem parse_fits (data : Bytes) (fields : List Field) (isUpdate : Bool) (vals : List PgValue)
    (n : ℕ) (h : TupleDecoder.parse data fields isUpdate = .ok (vals, n)) :
    PrefixFits isUpdate fields vals := by
  unfold TupleDecoder.parse at h
  split_ifs at h with hmin
  · cases h
  simp only [bind_ok_iff] at h
  obtain ⟨nCols, _, h⟩ := h
  split_ifs at h with hcount hfast
  · cases h
  · have hle : nCols ≤ fields.length :=
      Nat.le_trans (Nat.le_of_not_gt hcount) (Nat.mod_le _ _)
    have hloops := anyCols_eq_numCols data fields isUpdate nCols 0 2 (by omega) []
    rw [List.drop_zero] at hloops
    rw [← hloops] at h
    exact anyCols_fits data fields isUpdate nCols 0 2 [] vals n rfl (prefixFits_nil _ _) h
  · exact anyCols_fits data fields isUpdate nCols 0 2 [] vals n rfl (prefixFits_nil _ _) h

theorem parseKeys_fits (data : Bytes) (fields : List KeyField) (indexes : List ℕ) (total : ℕ)
    (vals : List PgValue) (n : ℕ) (h : parseKeys data fields indexes total = .ok (vals, n)) :
    PrefixFits false fields vals := by
  unfold parseKeys at h
  split_ifs at h with hmin
  · cases h
  simp only [bind_ok_iff] at h
  obtain ⟨nCols, _, h⟩ := h
  split_ifs at h with hcount hfast
  · cases h
  · exact keyCols_fits data fields indexes total _ _ _ _ [] vals n rfl (prefixFits_nil _ _) h
  · exact anyCols_fits data fields false nCols 0 2 [] vals n rfl (prefixFits_nil _ _) h

section Messages
variable {rd : RelationData} (hbuilt : Built rd)
include hbuilt

theorem oldTuple_fits (data : Bytes) (vals : List PgValue) (n : ℕ)
    (h : getOldTupleData data rd = .ok (vals, n)) : OldFits rd.inner vals := by
  unfold getOldTupleData at h
  by_cases hempty : data.isEmpty = true
  · rw [if_pos hempty] at h
    cases h
  rw [if_neg hempty, bind_ok_iff] at h
  obtain ⟨tag, _, h⟩ := h
  by_cases hkey : tag = tagK
  · rw [if_pos hkey] at h
    split_ifs at h with hkind
    · cases h
    simp only [bind_ok_iff, pure_ok, Except.ok.injEq, Prod.mk.injEq] at h
    obtain ⟨rest, _, ⟨keys, size⟩, hp, rfl, _⟩ := h
    have hfits := parseKeys_fits _ _ _ _ _ _ hp
    rw [OldFits, not_not.mp hkind, ← hbuilt.keyFields_eq]
    exact hfits
  · rw [if_neg hkey] at h
    split_ifs at h with hold hkind
    · cases h
    · simp only [bind_ok_iff, pure_ok, Except.ok.injEq, Prod.mk.injEq] at h
      obtain ⟨rest, _, ⟨row, size⟩, hp, rfl, _⟩ := h
      rw [OldFits, not_not.mp hkind]
      exact parse_fits _ _ _ _ _ hp
    · cases h

omit hbuilt in
theorem oldFits_nil (relation : Relation) : OldFits relation [] := by
  unfold OldFits
  cases relation.replicaId with
  | keys => exact prefixFits_nil _ _
  | row => exact prefixFits_nil _ _

theorem oldOrEmpty_fits (data : Bytes) (vals : List PgValue) (n : ℕ)
    (h : oldOrEmpty (getOldTupleData data rd) = .ok (vals, n)) : OldFits rd.inner vals := by
  unfold oldOrEmpty at h
  split at h
  · split_ifs at h with htag
    · cases h
      exact oldFits_nil rd.inner
    · exact oldTuple_fits hbuilt data vals n h
  · exact oldTuple_fits hbuilt data vals n h

omit hbuilt in
theorem newTuple_fits (data : Bytes) (fields : List Field) (isUpdate : Bool) (vals : List PgValue)
    (h : getNewTupleData data fields isUpdate = .ok vals) : PrefixFits isUpdate fields vals := by
  unfold getNewTupleData at h
  split_ifs at h with hempty
  · cases h
  simp only [bind_ok_iff] at h
  obtain ⟨tag, _, h⟩ := h
  split_ifs at h with htag
  · cases h
  simp only [bind_ok_iff, pure_ok, Except.ok.injEq] at h
  obtain ⟨rest, _, ⟨tuple, size⟩, hp, rfl⟩ := h
  exact parse_fits _ _ _ _ _ hp

end Messages

def Keyed (map : RelationMap) : Prop :=
  ∀ oid rd, map oid = some rd → rd.inner.relationOid = oid ∧ Built rd

theorem lookup_some {map : RelationMap} {oid : Oid} {rd : RelationData}
    (h : lookup map oid = .ok rd) : map oid = some rd := by
  unfold lookup at h
  split at h
  · cases h
    assumption
  · cases h

section Parsers
variable {map : RelationMap} (hmap : Keyed map) (data : Bytes) (event : ChangeEvent)
  (rd : RelationData)
include hmap

omit hmap in
theorem insert_typed (h : Insert.parse data map = .ok (event, rd)) :
    WellTyped rd.inner event := by
  unfold Insert.parse at h
  split_ifs at h with hmin
  · cases h
  simp only [bind_ok_iff, pure_ok, Except.ok.injEq, Prod.mk.injEq] at h
  obtain ⟨oid, _, relation, _, rest, _, row, hrow, rfl, rfl⟩ := h
  exact ⟨rfl, newTuple_fits rest _ false row hrow⟩

theorem update_typed (h : Update.parse data map = .ok (event, rd)) :
    WellTyped rd.inner event := by
  unfold Update.parse at h
  split_ifs at h with hmin
  · cases h
  simp only [bind_ok_iff] at h
  obtain ⟨oid, _, relation, hrel, rest, _, ⟨old, size⟩, hold, h⟩ := h
  dsimp only at h
  split_ifs at h with hsize
  · cases h
  simp only [bind_ok_iff, pure_ok, Except.ok.injEq, Prod.mk.injEq] at h
  obtain ⟨start, _, row, hrow, rfl, rfl⟩ := h
  obtain ⟨hoid, hbuilt⟩ := hmap oid relation (lookup_some hrel)
  exact ⟨hoid.symm, oldOrEmpty_fits hbuilt rest old size hold, newTuple_fits start _ true row hrow⟩

theorem delete_typed (h : Delete.parse data map = .ok (event, rd)) :
    WellTyped rd.inner event := by
  unfold Delete.parse at h
  split_ifs at h with hmin
  · cases h
  simp only [bind_ok_iff, pure_ok, Except.ok.injEq, Prod.mk.injEq] at h
  obtain ⟨oid, _, relation, hrel, rest, _, ⟨old, size⟩, hold, rfl, rfl⟩ := h
  obtain ⟨hoid, hbuilt⟩ := hmap oid relation (lookup_some hrel)
  exact ⟨hoid.symm, oldTuple_fits hbuilt rest old size hold⟩

end Parsers

theorem change_typed {map : RelationMap} (hmap : Keyed map) {event : ReplicationEvent}
    {change : ChangeEvent} {rd : RelationData} (h : action map event = .change (.ok (change, rd))) :
    WellTyped rd.inner change := by
  cases event with
  | xlogData data =>
    cases data with
    | nil => cases h
    | cons tag rest =>
      by_cases htag : tag = tagR
      · simp only [action, if_pos htag] at h
        split at h <;> cases h
      · simp only [action, if_neg htag, rowParser] at h
        by_cases hi : tag = tagI
        · rw [if_pos hi] at h
          exact insert_typed (tag::rest) change rd (Action.change.inj h)
        · by_cases hd : tag = tagD
          · rw [if_neg hi, if_pos hd] at h
            exact delete_typed hmap (tag::rest) change rd (Action.change.inj h)
          · by_cases hu : tag = tagU
            · rw [if_neg hi, if_neg hd, if_pos hu] at h
              exact update_typed hmap (tag::rest) change rd (Action.change.inj h)
            · rw [if_neg hi, if_neg hd, if_neg hu] at h
              cases h
  | commit lsn endLsn => cases h
  | begin => cases h
  | keepAlive => cases h
  | message => cases h
  | other => cases h

structure TypedRecord (k : KafkaTopics) (r : Record) : Prop where
  written : Written k r
  typed : ∀ row ∈ r.row?, WellTyped row.1 row.2

theorem added_typed (k : KafkaTopics) {map : RelationMap} (hmap : Keyed map)
    (event : ReplicationEvent) (r : Record) (h : r ∈ added k map event) : TypedRecord k r := by
  refine ⟨added_written k map event r h, ?_⟩
  intro row hrow
  unfold added at h
  split at h
  · cases h
    cases hrow
  · cases h
    cases hrow
    exact change_typed hmap (by assumption)
  · cases h
    cases hrow
  · cases h

theorem keyed_step (i : Step) (s s' : KafkaReader) (h : Keyed s.relationMap)
    (hs : step i s = some s') : Keyed s'.relationMap := by
  rcases step_cases i s s' hs with
    ⟨_, rfl⟩ | ⟨rd, ha, rfl⟩ | ⟨result, _, hs⟩ | ⟨_, rfl⟩ | ⟨lsn, endLsn, _, rfl⟩
  · exact h
  · intro oid relation hrel
    simp only [onRelationMessage] at hrel
    by_cases hoid : oid = rd.inner.relationOid
    · rw [hoid, Function.update_self, Option.some.injEq] at hrel
      subst hrel
      exact ⟨hoid.symm, PayloadPanics.action_built ha⟩
    · rw [Function.update_of_ne hoid] at hrel
      exact h oid relation hrel
  · rw [onChange_relationMap _ _ _ _ hs]
    exact h
  · rw [onBegin_relationMap]
    exact h
  · rw [onCommit_relationMap]
    exact h

structure Typed (k : KafkaTopics) (d : Deployment) : Prop where
  past : ∀ r ∈ d.past.flatten, TypedRecord k r
  process : ∀ r, d.process = some r → Logged k (TypedRecord k) r.reader ∧ Keyed r.reader.relationMap

section Run
variable {k : KafkaTopics}

theorem typed_committed {d : Deployment} (h : Typed k d) :
    ∀ r ∈ d.committed.flatten, TypedRecord k r := by
  unfold Deployment.committed
  cases hprocess : d.process with
  | none => exact h.past
  | some r => exact (h.process r hprocess).1.committed

theorem typed_ended {d : Deployment} (h : Typed k d) : Typed k d.ended :=
  ⟨typed_committed h, fun _ hr => by cases hr⟩

theorem typed_happen (e : Happening) (d : Deployment) (h : Typed k d) : Typed k (happen k e d) := by
  cases e with
  | start polls =>
    cases hlsn : readLsn polls with
    | none =>
      simp only [happen, hlsn]
      exact typed_ended h
    | some result =>
      cases result with
      | error e =>
        simp only [happen, hlsn]
        exact typed_ended h
      | ok lsn =>
        simp only [happen, hlsn]
        refine ⟨typed_committed h, ?_⟩
        intro r hr
        cases hr
        exact ⟨⟨rfl, fun _ hbuf => (by cases hbuf), typed_committed h⟩,
          fun _ _ hrel => by cases hrel⟩
  | replication i =>
    cases hprocess : d.process with
    | none =>
      simp only [happen, hprocess]
      exact h
    | some r =>
      obtain ⟨hlogged, hkeyed⟩ := h.process r hprocess
      cases hs : step i r.reader with
      | none =>
        simp only [happen, hprocess, hs]
        exact typed_ended h
      | some reader =>
        simp only [happen, hprocess, hs]
        refine ⟨h.past, ?_⟩
        intro r' hr'
        cases hr'
        exact ⟨logged_step k (TypedRecord k) i r.reader reader hlogged
          (added_typed k hkeyed i.event) hs, keyed_step i r.reader reader hkeyed hs⟩
  | confirm lsn => exact ⟨h.past, h.process⟩
  | closed o =>
    cases hprocess : d.process with
    | none =>
      simp only [happen, hprocess]
      exact h
    | some r =>
      simp only [happen, hprocess]
      refine ⟨?_, fun _ hr => by cases hr⟩
      rw [(close_committed o r.reader).1]
      exact (h.process r hprocess).1.committed
  | crash => exact typed_ended h

theorem typed_run (happenings : List Happening) (d : Deployment) (h : Typed k d) :
    Typed k (deployed k happenings d) := by
  induction happenings generalizing d with
  | nil => exact h
  | cons e happenings ih => exact ih _ (typed_happen e d h)

end Run

theorem typed_deployed (k : KafkaTopics) (happenings : List Happening) :
    ∀ r ∈ (deployed k happenings fresh).committed.flatten, TypedRecord k r :=
  typed_committed (typed_run happenings fresh
    ⟨fun _ hr => (by cases hr), fun _ hr => by cases hr⟩)

/-- Whatever bytes the stream holds, whatever fails, crashes and starts again,
every committed row fits the relation it is published under. -/
theorem committed_rows_fit (topic key : String) (happenings : List Happening) :
    ∀ row ∈ rowsOf (deployed (KafkaTopics.new topic key) happenings fresh).committed.flatten,
      WellTyped row.1 row.2 := by
  intro row hrow
  obtain ⟨r, hr, hrow⟩ := List.mem_filterMap.mp hrow
  exact (typed_deployed _ happenings r hr).typed row hrow

theorem crashed_row_fits : WellTyped (insertRow 1).1 (insertRow 1).2 :=
  committed_rows_fit "cdc" "k" crashed (insertRow 1) (by decide +kernel)

end CDC.TypedLog
