import CdcConnector.Feldera
import CdcConnector.MergeToasted
import CdcConnector.PostgresSink

/-!
# No toasted value reaches a conversion

Only the new row of an update can hold a toasted value. No loop of the two
tuple decoders yields one otherwise, and the merge takes the rest away or
fails.
-/

set_option autoImplicit false

namespace CDC.ToastedFree
open CDC.Fallible CDC.Event CDC.Decoder CDC.RelationDecoder CDC.TupleDecoder CDC.RowDecoder
open CDC.TupleSyntax CDC.MergeToasted CDC.SinkStatements CDC.PostgresSink

def values : Op → List PgValue
  | .insert row => row
  | .update old row => old ++ row
  | .delete old => old

theorem itemOf_plain (kind : FieldKind) (item : Bytes) (v : PgValue)
    (h : ItemOf false kind item v) : v ≠ .toasted := by
  cases h with
  | null => simp
  | toasted h => cases h
  | text len s _ _ => simp
  | binary len payload v _ _ hv =>
    rintro rfl
    exact hv

theorem parseValue_plain {F : Type} [FieldAccess F] (data : Bytes) (field : F) (v : PgValue) (l : ℕ)
    (h : parseValue data field false = .ok (v, l)) : v ≠ .toasted := by
  obtain ⟨item, rest, _, _, hitem⟩ := (parseValue_ok_iff data field false v l).mp h
  exact itemOf_plain _ item v hitem

theorem snoc_plain {cols : List PgValue} {v : PgValue} (hcols : .toasted ∉ cols) (hv : v ≠ .toasted) :
    .toasted ∉ cols ++ [v] := by
  intro h
  rcases List.mem_append.mp h with h | h
  · exact hcols h
  · exact hv (List.mem_singleton.mp h).symm

theorem numCols_plain (data : Bytes) (fields : List Field) (lastPos : ℕ) (cols vals : List PgValue)
    (n : ℕ) (hcols : .toasted ∉ cols)
    (h : numCols data false fields lastPos cols = .ok (vals, n)) : .toasted ∉ vals := by
  induction fields generalizing lastPos cols with
  | nil =>
    cases h
    exact hcols
  | cons field fields ih =>
    simp only [numCols, bind_ok_iff] at h
    obtain ⟨rest, _, ⟨v, l⟩, hv, hrec⟩ := h
    exact ih _ _ (snoc_plain hcols (parseValue_plain rest field v l hv)) hrec

theorem anyCols_plain {F : Type} [FieldAccess F] (data : Bytes) (fields : List F)
    (left i lastPos : ℕ) (cols vals : List PgValue) (n : ℕ) (hcols : .toasted ∉ cols)
    (h : anyCols data fields false left i lastPos cols = .ok (vals, n)) : .toasted ∉ vals := by
  induction left generalizing i lastPos cols with
  | zero =>
    cases h
    exact hcols
  | succ left ih =>
    simp only [anyCols, bind_ok_iff] at h
    obtain ⟨rest, _, field, _, ⟨v, l⟩, hv, hrec⟩ := h
    exact ih _ _ _ (snoc_plain hcols (parseValue_plain rest field v l hv)) hrec

theorem keyCols_plain (data : Bytes) (fields : List KeyField) (indexes : List ℕ)
    (total left i keyIdx lastPos : ℕ) (cols vals : List PgValue) (n : ℕ) (hcols : .toasted ∉ cols)
    (h : keyCols data fields indexes total left i keyIdx lastPos cols = .ok (vals, n)) :
    .toasted ∉ vals := by
  induction left generalizing i keyIdx lastPos cols with
  | zero =>
    cases h
    exact hcols
  | succ left ih =>
    simp only [keyCols, bind_ok_iff] at h
    obtain ⟨nextKey, _, h⟩ := h
    split_ifs at h with hkey
    · simp only [bind_ok_iff] at h
      obtain ⟨rest, _, field, _, ⟨v, l⟩, hv, lastKey, _, h⟩ := h
      have hnext := snoc_plain hcols (parseValue_plain rest field v l hv)
      dsimp only at h
      split_ifs at h with hlast
      · exact ih _ _ _ _ hnext h
      · simp only [bind_ok_iff, pure_ok, Except.ok.injEq, Prod.mk.injEq] at h
        obtain ⟨size, _, rfl, _⟩ := h
        exact hnext
    · exact ih _ _ _ _ hcols h

theorem parse_plain (data : Bytes) (fields : List Field) (vals : List PgValue) (n : ℕ)
    (h : TupleDecoder.parse data fields false = .ok (vals, n)) : .toasted ∉ vals := by
  unfold TupleDecoder.parse at h
  split_ifs at h with hmin
  · cases h
  simp only [bind_ok_iff] at h
  obtain ⟨nCols, _, h⟩ := h
  split_ifs at h with hcount hfast
  · cases h
  · exact numCols_plain data _ _ _ _ _ (by simp) h
  · exact anyCols_plain data _ _ _ _ _ _ _ (by simp) h

theorem parseKeys_plain (data : Bytes) (fields : List KeyField) (indexes : List ℕ) (total : ℕ)
    (vals : List PgValue) (n : ℕ) (h : parseKeys data fields indexes total = .ok (vals, n)) :
    .toasted ∉ vals := by
  unfold parseKeys at h
  split_ifs at h with hmin
  · cases h
  simp only [bind_ok_iff] at h
  obtain ⟨nCols, _, h⟩ := h
  split_ifs at h with hcount hfast
  · cases h
  · exact keyCols_plain data _ _ _ _ _ _ _ _ _ _ (by simp) h
  · exact anyCols_plain data _ _ _ _ _ _ _ (by simp) h

theorem oldTuple_plain (data : Bytes) (relation : RelationData) (vals : List PgValue) (n : ℕ)
    (h : getOldTupleData data relation = .ok (vals, n)) : .toasted ∉ vals := by
  unfold getOldTupleData at h
  by_cases hempty : data.isEmpty = true
  · rw [if_pos hempty] at h
    cases h
  rw [if_neg hempty, bind_ok_iff] at h
  obtain ⟨tag, _, h⟩ := h
  by_cases hkey : tag = tagK
  · rw [if_pos hkey] at h
    split_ifs at h with hkind
    · cases h
    simp only [bind_ok_iff, pure_ok, Except.ok.injEq, Prod.mk.injEq] at h
    obtain ⟨rest, _, ⟨keys, size⟩, hp, rfl, _⟩ := h
    exact parseKeys_plain rest _ _ _ _ _ hp
  · rw [if_neg hkey] at h
    split_ifs at h with hold hkind
    · cases h
    · simp only [bind_ok_iff, pure_ok, Except.ok.injEq, Prod.mk.injEq] at h
      obtain ⟨rest, _, ⟨row, size⟩, hp, rfl, _⟩ := h
      exact parse_plain rest _ _ _ hp
    · cases h

theorem newTuple_plain (data : Bytes) (fields : List Field) (vals : List PgValue)
    (h : getNewTupleData data fields false = .ok vals) : .toasted ∉ vals := by
  unfold getNewTupleData at h
  split_ifs at h with hempty
  · cases h
  simp only [bind_ok_iff] at h
  obtain ⟨tag, _, h⟩ := h
  split_ifs at h with htag
  · cases h
  simp only [bind_ok_iff, pure_ok, Except.ok.injEq] at h
  obtain ⟨rest, _, ⟨tuple, size⟩, hp, rfl⟩ := h
  exact parse_plain rest fields _ _ hp

/-- Where an operation can hold a toasted value: the new row of an update. -/
def Decodable : Op → Prop
  | .insert row => .toasted ∉ row
  | .update old _ => .toasted ∉ old
  | .delete old => .toasted ∉ old

theorem insert_decodable (data : Bytes) (map : RelationMap) (event : ChangeEvent) (rd : RelationData)
    (h : Insert.parse data map = .ok (event, rd)) : Decodable event.op := by
  unfold Insert.parse at h
  split_ifs at h with hmin
  · cases h
  simp only [bind_ok_iff, pure_ok, Except.ok.injEq, Prod.mk.injEq] at h
  obtain ⟨oid, _, relation, _, rest, _, row, hrow, rfl, _⟩ := h
  exact newTuple_plain rest _ row hrow

theorem oldOrEmpty_plain (data : Bytes) (relation : RelationData) (vals : List PgValue) (n : ℕ)
    (h : oldOrEmpty (getOldTupleData data relation) = .ok (vals, n)) : .toasted ∉ vals := by
  unfold oldOrEmpty at h
  split at h
  · split_ifs at h with htag
    · cases h
      simp
    · exact oldTuple_plain data relation vals n h
  · exact oldTuple_plain data relation vals n h

theorem update_decodable (data : Bytes) (map : RelationMap) (event : ChangeEvent) (rd : RelationData)
    (h : Update.parse data map = .ok (event, rd)) : Decodable event.op := by
  unfold Update.parse at h
  split_ifs at h with hmin
  · cases h
  simp only [bind_ok_iff] at h
  obtain ⟨oid, _, relation, _, rest, _, ⟨old, size⟩, hold, h⟩ := h
  dsimp only at h
  split_ifs at h with hsize
  · cases h
  simp only [bind_ok_iff, pure_ok, Except.ok.injEq, Prod.mk.injEq] at h
  obtain ⟨start, _, row, _, rfl, _⟩ := h
  exact oldOrEmpty_plain rest relation old size hold

theorem delete_decodable (data : Bytes) (map : RelationMap) (event : ChangeEvent) (rd : RelationData)
    (h : Delete.parse data map = .ok (event, rd)) : Decodable event.op := by
  unfold Delete.parse at h
  split_ifs at h with hmin
  · cases h
  simp only [bind_ok_iff, pure_ok, Except.ok.injEq, Prod.mk.injEq] at h
  obtain ⟨oid, _, relation, _, rest, _, ⟨old, size⟩, hold, rfl, _⟩ := h
  exact oldTuple_plain rest relation old size hold

theorem merged_plain (op op' : Op) (hop : Decodable op) (h : mergeToasted op = .ok op') :
    .toasted ∉ values op' := by
  cases op with
  | insert row =>
    cases h
    exact hop
  | delete old =>
    cases h
    exact hop
  | update old row =>
    rcases merge_or_error old row with he | ⟨row', ho⟩
    · rw [mergeToasted, he] at h
      cases h
    · rw [mergeToasted, ho] at h
      cases h
      intro hmem
      rcases List.mem_append.mp hmem with hmem | hmem
      · exact hop hmem
      · obtain ⟨j, hj⟩ := List.mem_iff_getElem?.mp hmem
        have hget := mergeToastedFrom_get old 0 row row' ho j
        rw [Nat.zero_add, hj] at hget
        split_ifs at hget with htoast
        · exact hop (List.mem_iff_getElem?.mpr ⟨j, hget.symm⟩)
        · exact htoast hget.symm

theorem merge_error_iff (op : Op) :
    mergeToasted op = .error .mk ↔
      ∃ old row, op = .update old row ∧ ∃ i, row[i]? = some PgValue.toasted ∧ old.length ≤ i := by
  cases op with
  | insert row => simp [mergeToasted]
  | delete old => simp [mergeToasted]
  | update old row =>
    have herr := mergeToastedFrom_error_iff old 0 row
    simp only [Nat.zero_add] at herr
    constructor
    · intro h
      rcases merge_or_error old row with he | ⟨row', ho⟩
      · exact ⟨old, row, rfl, herr.mp he⟩
      · rw [mergeToasted, ho] at h
        cases h
    · rintro ⟨_, _, he, htoast⟩
      cases he
      rw [mergeToasted, herr.mpr htoast]
      rfl

theorem deleteParams_mem (identity : Option RelationIdentity) (rel : Oid)
    (old params : List PgValue) (h : deleteParams identity rel old = .ok params) :
    ∀ v ∈ params, v ∈ old := by
  unfold deleteParams at h
  split at h
  · cases h
    exact fun v hv => hv
  · cases h
    intro v hv
    obtain ⟨⟨w, i⟩, hmem, hw⟩ := List.mem_filterMap.mp hv
    have hin := List.fst_mem_of_mem_zipIdx hmem
    dsimp only at hw
    split_ifs at hw with hid
    · cases hw
      exact hin
  · cases h

theorem params_mem {D : Type} [PostgresClient D] (event : ChangeEvent) (s s' : Sink D)
    (stmt : Statement) (params : List PgValue)
    (h : prepareEvent event s = (s', .ok (stmt, params))) :
    ∃ op, mergeToasted event.op = .ok op ∧ ∀ v ∈ params, v ∈ values op := by
  unfold prepareEvent at h
  cases hm : mergeToasted event.op with
  | error e =>
    rw [hm] at h
    cases h
  | ok op =>
    rw [hm] at h
    refine ⟨op, rfl, ?_⟩
    cases op with
    | insert row =>
      obtain ⟨_, _, hp⟩ := (bind_ok_iff _ _ _).mp (Prod.mk.inj h).2
      cases hp
      exact fun v hv => hv
    | update old row =>
      obtain ⟨_, _, hp⟩ := (bind_ok_iff _ _ _).mp (Prod.mk.inj h).2
      cases hp
      exact fun v hv => List.mem_append_right old hv
    | delete old =>
      obtain ⟨_, _, hd⟩ := (bind_ok_iff _ _ _).mp (Prod.mk.inj h).2
      obtain ⟨_, hk, hp⟩ := (bind_ok_iff _ _ _).mp hd
      cases hp
      exact deleteParams_mem _ _ old _ hk

theorem toSql_toasted_iff (v : PgValue) :
    toSql v = fail "Toasted value was not substituted" ↔ v = .toasted := by
  cases v with
  | timestamp t =>
    simp only [toSql]
    split_ifs <;> simp [fail, panicked]
  | _ => simp [toSql, fail]

theorem toJsonValue_null {ε : Type} (overflowChecks : Bool) (v : PgValue)
    (h : (JsonValue.toJsonValue overflowChecks v : Outcome ε JsonText.Value) = .ok .null) :
    v = .null ∨ (∃ t, v = .timestamp t) ∨ v = .toasted := by
  cases v with
  | null => exact Or.inl rfl
  | timestamp t => exact Or.inr (Or.inl ⟨t, rfl⟩)
  | toasted => exact Or.inr (Or.inr rfl)
  | _ => cases h

theorem rows_values (op : Op) (rel : Oid) : (Feldera.rows ⟨op, rel⟩).flatten = values op := by
  cases op with
  | insert row => exact List.append_nil row
  | update old row => exact congrArg (old ++ ·) (List.append_nil row)
  | delete old => exact List.append_nil old

/-- For every message the row decoders accept: the merge fails exactly for an
update with a toasted column beyond its old values; otherwise no value of the
operation is toasted, no parameter the Postgres sink binds is refused as such,
and no null the Feldera sink makes of a value stands for one. -/
theorem decoded_event_plain (data : Bytes) (map : RelationMap) (event : ChangeEvent)
    (rd : RelationData)
    (h : Insert.parse data map = .ok (event, rd) ∨ Update.parse data map = .ok (event, rd) ∨
      Delete.parse data map = .ok (event, rd)) :
    (mergeToasted event.op = .error .mk ↔
      ∃ old row, event.op = .update old row ∧
        ∃ i, row[i]? = some PgValue.toasted ∧ old.length ≤ i) ∧
    (∀ op, mergeToasted event.op = .ok op → .toasted ∉ values op) ∧
    (∀ (D : Type) [PostgresClient D] (s s' : Sink D) (stmt : Statement) (params : List PgValue),
      prepareEvent event s = (s', .ok (stmt, params)) →
        ∀ v ∈ params, toSql v ≠ fail "Toasted value was not substituted") ∧
    ∀ op, mergeToasted event.op = .ok op → ∀ row ∈ Feldera.rows ⟨op, event.rel⟩, ∀ v ∈ row,
      ∀ overflowChecks, (JsonValue.toJsonValue overflowChecks v :
        Outcome Feldera.Error JsonText.Value) = .ok .null → v = .null ∨ ∃ t, v = .timestamp t := by
  have hop : Decodable event.op := by
    rcases h with h | h | h
    · exact insert_decodable data map event rd h
    · exact update_decodable data map event rd h
    · exact delete_decodable data map event rd h
  refine ⟨merge_error_iff event.op, fun op ho => merged_plain event.op op hop ho, ?_, ?_⟩
  · intro D _ s s' stmt params hp v hv htoast
    obtain ⟨op, ho, hmem⟩ := params_mem event s s' stmt params hp
    have hv := hmem v hv
    rw [(toSql_toasted_iff v).mp htoast] at hv
    exact merged_plain event.op op hop ho hv
  · intro op ho row hrow v hv overflowChecks hnull
    have hmem : v ∈ values op := by
      rw [← rows_values op event.rel]
      exact List.mem_flatten_of_mem hrow hv
    rcases toJsonValue_null overflowChecks v hnull with h | h | h
    · exact Or.inl h
    · exact Or.inr h
    · subst h
      exact absurd hmem (merged_plain event.op op hop ho)

theorem decoded_update_plain :
    Update.parse notesUpdate (fun _ => some ⟨notesRelation, [⟨"id", .int4⟩], [1]⟩) =
        .ok (⟨.update [.int4 7] [.toasted, .int4 7], 1⟩, ⟨notesRelation, [⟨"id", .int4⟩], [1]⟩) ∧
      ∀ op, mergeToasted (.update [.int4 7] [.toasted, .int4 7]) = .ok op → .toasted ∉ values op :=
  have h : Update.parse notesUpdate (fun _ => some ⟨notesRelation, [⟨"id", .int4⟩], [1]⟩) =
      .ok (⟨.update [.int4 7] [.toasted, .int4 7], 1⟩, ⟨notesRelation, [⟨"id", .int4⟩], [1]⟩) := by
    decide +kernel
  ⟨h, (decoded_event_plain _ _ _ _ (Or.inr (Or.inl h))).2.1⟩

end CDC.ToastedFree
