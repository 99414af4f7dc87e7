import CdcConnector.SourceTable

/-!
# The sink table

What the sink's two statements make of its table for every event, without the
sink around it: an event is dropped, executed, or ends the process. The
result is the source's next table exactly for the operations the sink can
follow.
-/

set_option autoImplicit false

namespace CDC.SinkTable
open CDC.Fallible CDC.Event CDC.SinkStatements CDC.PostgresSink CDC.KeyedTable CDC.SinkDatabase
open CDC.SourceTable

/-- The number of parameters is checked first; one that cannot be converted
fails the call or panics in it. -/
def executed (columns : List String) (command : Command) (params : List PgValue)
    (t : Finset TableRow) : Option (Finset TableRow) :=
  if params.length ≠ command.arity then some t
  else
    match convert (params.map toSql) with
    | .ok values => some (command.run columns values t)
    | .error (.error _) => some t
    | .error .panic => none

section Relation
variable (rel : Relation)

abbrev upsertCommand : Command :=
  .upsert (extractFieldsNames rel) (extractKeysRel rel)
    ((extractFieldsNames rel).filter (fun c => c ∉ extractKeysRel rel))

abbrev deleteCommand : Command := .delete (extractKeysRel rel)

def keptValues (old : List PgValue) : List PgValue :=
  old.zipIdx.filterMap (fun (v, i) =>
    if (extractKeysPos rel.fields).contains i then some v else none)

def tableStep (op : Op) (t : Finset TableRow) : Option (Finset TableRow) :=
  match mergeToasted op with
  | .error _ => some t
  | .ok (.insert row) => executed (extractFieldsNames rel) (upsertCommand rel) row t
  | .ok (.update _ row) => executed (extractFieldsNames rel) (upsertCommand rel) row t
  | .ok (.delete old) => executed (extractFieldsNames rel) (deleteCommand rel) (keptValues rel old) t

def leadingKeys : Bool :=
  (List.range (extractKeysRel rel).length).all (fun i => (extractKeysPos rel.fields).contains i)

/-- The operations the sink follows. -/
def replicable : SourceOp → Bool
  | .insert row => row.all sendable
  | .update old new unchanged =>
    decide (keyCells rel new = keyCells rel old) &&
      if unchanged.contains true then decide (new = old) else new.all sendable
  | .delete old => leadingKeys rel && (keyCells rel old).all sendable

structure Taken where
  upserts : Bool
  deletes : Bool

/-- A refused text leaves the table. -/
def answeredStep (taken : Taken) (op : Op) (t : Finset TableRow) : Option (Finset TableRow) :=
  match op with
  | .delete _ => if taken.deletes then tableStep rel op t else some t
  | _ => if taken.upserts then tableStep rel op t else some t

/-- Where a text is refused, only an update that changes nothing is followed. -/
def followed (taken : Taken) : SourceOp → Bool
  | .insert row => taken.upserts && replicable rel (.insert row)
  | .update old new unchanged =>
    if taken.upserts then replicable rel (.update old new unchanged) else decide (new = old)
  | .delete old => taken.deletes && replicable rel (.delete old)

theorem followed_taken (op : SourceOp) : followed rel ⟨true, true⟩ op = replicable rel op := by
  cases op <;> rfl

end Relation

theorem kept_all (ids : List ℕ) (xs : List PgValue) (n : ℕ)
    (h : ∀ i, n ≤ i → i < n + xs.length → ids.contains i = true) :
    (xs.zipIdx n).filterMap (fun (v, i) => if ids.contains i then some v else none) = xs := by
  induction xs generalizing n with
  | nil => rfl
  | cons x xs ih =>
    rw [List.length_cons] at h
    have hn := h n (le_refl n) (by omega)
    simp only [List.zipIdx_cons, List.filterMap_cons, hn, if_true]
    rw [ih (n+1) (fun i hi hlt => h i (by omega) (by omega))]

theorem kept_fewer (ids : List ℕ) (xs : List PgValue) (i : ℕ) (hi : i < xs.length)
    (hid : ids.contains i = false) :
    (xs.zipIdx.filterMap (fun (v, i) => if ids.contains i then some v else none)).length <
      xs.length := by
  have hdropped : (xs.get ⟨i, hi⟩, i) ∈ xs.zipIdx := by
    rw [List.mem_zipIdx_iff_getElem?]
    exact List.getElem?_eq_getElem hi
  refine lt_of_lt_of_eq (List.length_filterMap_lt_length_iff_exists.mpr ⟨_, hdropped, ?_⟩)
    List.length_zipIdx
  simp only [hid, Bool.false_eq_true, if_false]

theorem executed_values (columns : List String) (command : Command) (cells : List Cell)
    (t : Finset TableRow) (hlen : cells.length = command.arity) :
    executed columns command (cells.map value) t =
      if cells.all sendable then some (command.run columns cells t) else none := by
  unfold executed
  rw [if_neg (by rw [List.length_map]; exact not_not.mpr hlen), convert_row]
  by_cases h : cells.all sendable = true
  · rw [if_pos h, if_pos h]
  · rw [if_neg h, if_neg h]
    rfl

theorem update_same_iff (t : Finset TableRow) (old new : TableRow) (hold : old ∈ t) :
    t = insert new (t.erase old) ↔ new = old := by
  constructor
  · intro he
    rw [he] at hold
    rcases Finset.mem_insert.mp hold with he | he
    · exact he.symm
    · exact absurd rfl (Finset.ne_of_mem_erase he)
  · rintro rfl
    exact (Finset.insert_erase hold).symm

section Step
variable (rel : Relation) (hnodup : (extractFieldsNames rel).Nodup) (t : Finset TableRow)
  (ht : RelTable rel t)
include hnodup ht

theorem executed_row (row : TableRow) (hrow : row.length = (extractFieldsNames rel).length) :
    executed (extractFieldsNames rel) (upsertCommand rel) (row.map value) t =
      if row.all sendable then some (upsert (keyCells rel) row t) else none := by
  rw [executed_values _ (upsertCommand rel) row t hrow]
  simp only [Command.run]
  rw [executeUpsert_eq _ _ hnodup row hrow t ht.rows]

theorem executed_keeps_key (row : List PgValue)
    (hlen : row.length = (extractFieldsNames rel).length) (t' : Finset TableRow)
    (h : executed (extractFieldsNames rel) (upsertCommand rel) row t = some t') (old : TableRow)
    (hold : old ∈ t) : ∃ x ∈ t', keyCells rel x = keyCells rel old := by
  unfold executed at h
  split at h
  · cases h
    exact ⟨old, hold, rfl⟩
  · cases hc : convert (row.map toSql) with
    | ok values =>
      rw [hc] at h
      cases h
      have hvalues : values.length = (extractFieldsNames rel).length := by
        rw [convert_length _ _ hc, List.length_map, hlen]
      simp only [Command.run]
      rw [executeUpsert_eq _ _ hnodup values hvalues t ht.rows]
      exact upsert_keeps_key _ values old hold
    | error e =>
      rw [hc] at h
      cases e with
      | panic => cases h
      | error e =>
        cases h
        exact ⟨old, hold, rfl⟩

theorem update_keeps_key (oldKey row : List PgValue)
    (hlen : row.length = (extractFieldsNames rel).length) (t' : Finset TableRow)
    (h : tableStep rel (.update oldKey row) t = some t') (old : TableRow) (hold : old ∈ t) :
    ∃ x ∈ t', keyCells rel x = keyCells rel old := by
  simp only [tableStep, mergeToasted] at h
  cases hm : mergeToastedFrom oldKey 0 row with
  | error e =>
    rw [hm] at h
    cases h
    exact ⟨old, hold, rfl⟩
  | ok row' =>
    rw [hm] at h
    exact executed_keeps_key rel hnodup t ht row'
      (by rw [mergeToastedFrom_length _ _ _ _ hm, hlen]) t' h old hold

omit hnodup in
theorem executed_key (old : TableRow) :
    if leadingKeys rel && (keyCells rel old).all sendable then
      tableStep rel (.delete ((keyCells rel old).map value)) t =
        some (without (keyCells rel) (keyCells rel old) t)
    else ∀ t', tableStep rel (.delete ((keyCells rel old).map value)) t = some t' → t' = t := by
  have hlen : (keyCells rel old).length = (extractKeysRel rel).length := List.length_map _
  simp only [tableStep, mergeToasted, keptValues]
  by_cases hlead : leadingKeys rel = true
  · rw [kept_all, executed_values _ (deleteCommand rel) _ t hlen, hlead, Bool.true_and]
    · by_cases hs : (keyCells rel old).all sendable = true
      · rw [if_pos hs, if_pos hs]
        simp only [Command.run]
        rw [executeDelete_eq _ _ _ _ ht.rows]
      · rw [if_neg hs, if_neg hs]
        intro t' h
        cases h
    · intro i _ hi
      rw [Nat.zero_add, List.length_map, hlen] at hi
      exact List.all_eq_true.mp hlead i (List.mem_range.mpr hi)
  · rw [if_neg (by simp [hlead])]
    intro t' h
    obtain ⟨i, hi, hid⟩ : ∃ i, i < (extractKeysRel rel).length ∧
        (extractKeysPos rel.fields).contains i = false := by
      simpa [leadingKeys] using hlead
    have hfewer := kept_fewer (extractKeysPos rel.fields) ((keyCells rel old).map value) i
      (by rw [List.length_map, hlen]; exact hi) hid
    rw [List.length_map, hlen] at hfewer
    have harity := Nat.ne_of_lt hfewer
    rw [executed, if_pos (by exact harity)] at h
    cases h
    rfl

theorem insert_iff (row : TableRow) (hvalid : Valid rel t (.insert row)) :
    tableStep rel (toEvent rel (.insert row)).op t = some (sourceStep t (.insert row)) ↔
      replicable rel (.insert row) = true := by
  simp only [tableStep, toEvent, mergeToasted]
  rw [executed_row rel hnodup t ht row hvalid.1.length_eq, upsert_new _ row hvalid.2]
  by_cases h : row.all sendable = true
  · rw [if_pos h]
    exact ⟨fun _ => h, fun _ => rfl⟩
  · rw [if_neg h]
    exact ⟨fun he => (by cases he), fun hr => absurd hr h⟩

theorem update_iff (old new : TableRow) (unchanged : List Bool)
    (hvalid : Valid rel t (.update old new unchanged)) :
    tableStep rel (toEvent rel (.update old new unchanged)).op t =
        some (sourceStep t (.update old new unchanged)) ↔
      replicable rel (.update old new unchanged) = true := by
  obtain ⟨hold, hnew, _, hlen, _⟩ := hvalid
  by_cases hkey : keyCells rel new = keyCells rel old
  · simp only [toEvent, hkey, if_true, replicable, decide_true, Bool.true_and, tableStep, sourceStep]
    by_cases hshort : unchanged.contains true = true
    · rw [if_pos hshort, merge_short new unchanged hlen hshort, decide_eq_true_eq]
      exact Option.some_inj.trans (update_same_iff t old new hold)
    · rw [if_neg hshort, merge_whole [] new unchanged hlen (Bool.eq_false_of_not_eq_true hshort)]
      dsimp only
      rw [executed_row rel hnodup t ht new hnew.length_eq, upsert_same _ ht.keyed old new hold hkey]
      by_cases h : new.all sendable = true
      · rw [if_pos h]
        exact ⟨fun _ => h, fun _ => rfl⟩
      · rw [if_neg h]
        exact ⟨fun he => (by cases he), fun hr => absurd hr h⟩
  · -- the row of the old key stays in the sink and leaves the source
    simp only [replicable, hkey, decide_false, Bool.false_and, Bool.false_eq_true, iff_false]
    intro he
    obtain ⟨x, hx, hkeep⟩ := update_keeps_key rel hnodup t ht _ _
      (by rw [sent_length new unchanged hlen]; exact hnew.length_eq) _ he old hold
    exact update_takes_key rel t ht old new hold hkey x hx hkeep

omit hnodup in
theorem delete_iff (old : TableRow) (hvalid : Valid rel t (.delete old)) :
    tableStep rel (toEvent rel (.delete old)).op t = some (sourceStep t (.delete old)) ↔
      replicable rel (.delete old) = true := by
  have hkey := executed_key rel t ht old
  by_cases h : (leadingKeys rel && (keyCells rel old).all sendable) = true
  · rw [if_pos h, without_eq_erase _ ht.keyed old hvalid] at hkey
    exact ⟨fun _ => h, fun _ => hkey⟩
  · rw [if_neg h] at hkey
    refine ⟨fun he => ?_, fun hr => absurd hr h⟩
    have hsame : t.erase old = t := hkey _ he
    exact absurd hvalid (Finset.erase_eq_self.mp hsame)

theorem tableStep_iff (op : SourceOp) (hvalid : Valid rel t op) :
    tableStep rel (toEvent rel op).op t = some (sourceStep t op) ↔ replicable rel op = true := by
  cases op with
  | insert row => exact insert_iff rel hnodup t ht row hvalid
  | update old new unchanged => exact update_iff rel hnodup t ht old new unchanged hvalid
  | delete old => exact delete_iff rel t ht old hvalid

end Step

/-- The same where the server may refuse a text. -/
theorem answeredStep_iff (rel : Relation) (hnodup : (extractFieldsNames rel).Nodup)
    (t : Finset TableRow) (ht : RelTable rel t) (taken : Taken) (op : SourceOp)
    (hvalid : Valid rel t op) :
    answeredStep rel taken (toEvent rel op).op t = some (sourceStep t op) ↔
      followed rel taken op = true := by
  obtain ⟨upserts, deletes⟩ := taken
  have hstep := tableStep_iff rel hnodup t ht op hvalid
  cases op with
  | insert row =>
    cases upserts with
    | true => exact hstep
    | false =>
      refine iff_of_false (fun he => ?_) (by exact Bool.false_ne_true)
      have hsame : t = insert row t := Option.some.inj he
      exact hvalid.2 row (hsame ▸ Finset.mem_insert_self row t) rfl
  | update old new unchanged =>
    cases upserts with
    | true => exact hstep
    | false =>
      have hsame := update_same_iff t old new hvalid.1
      show some t = some (insert new (t.erase old)) ↔ decide (new = old) = true
      rw [Option.some.injEq, hsame, decide_eq_true_eq]
  | delete old =>
    cases deletes with
    | true => exact hstep
    | false =>
      refine iff_of_false (fun he => ?_) (by exact Bool.false_ne_true)
      have hsame : t = t.erase old := Option.some.inj he
      exact Finset.erase_eq_self.mp hsame.symm hvalid

end CDC.SinkTable
