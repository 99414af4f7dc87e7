import CdcConnector.Feldera
import CdcConnector.KeyTuple

/-!
# Key-only rows at Feldera

An old row of key values is paired with the names of the first columns. The
object is labelled with the key columns' names exactly when these are the
first columns.
-/

set_option autoImplicit false

namespace CDC.FelderaKeys
open CDC.Fallible CDC.Event CDC.RelationDecoder CDC.KeyTuple CDC.JsonText CDC.JsonValue
open CDC.Feldera

def keyNames (fields : List Field) : List String := (keyFields fields).map KeyField.name

/-- The key columns come before all others. -/
def KeysFirst (fields : List Field) : Prop :=
  allKeys (fields.take (keyFields fields).length) = true

instance (fields : List Field) : Decidable (KeysFirst fields) := inferInstanceAs (Decidable (_ = _))

theorem keyNames_key (f : Field) (fields : List Field) (h : f.isKey = true) :
    keyNames (f::fields) = f.name :: keyNames fields := by
  rw [keyNames, keyFields_key f fields h]
  rfl

theorem keyNames_plain (f : Field) (fields : List Field) (h : f.isKey = false) :
    keyNames (f::fields) = keyNames fields := by
  rw [keyNames, keyFields_plain f fields h]
  rfl

theorem mem_keyNames (fields : List Field) (name : String) :
    name ∈ keyNames fields ↔ ∃ f ∈ fields, f.isKey = true ∧ f.name = name := by
  induction fields with
  | nil => simp [keyNames, keyFields]
  | cons f fields ih =>
    simp only [List.mem_cons, exists_eq_or_imp]
    rw [← ih]
    cases hf : f.isKey with
    | true =>
      rw [keyNames_key f fields hf, List.mem_cons]
      simp [eq_comm]
    | false =>
      rw [keyNames_plain f fields hf]
      simp

theorem keyNames_all (fields : List Field) (h : allKeys fields = true) :
    keyNames fields = extractNames fields := by
  induction fields with
  | nil => rfl
  | cons f fields ih =>
    rw [allKeys, List.all_cons, Bool.and_eq_true] at h
    rw [keyNames_key f fields h.1, ih h.2]
    rfl

theorem keyNames_append (xs ys : List Field) : keyNames (xs ++ ys) = keyNames xs ++ keyNames ys := by
  rw [keyNames, keyFields_append, List.map_append, keyNames, keyNames]

theorem keyNames_first (fields : List Field) (h : KeysFirst fields) :
    (extractNames fields).take (keyFields fields).length = keyNames fields := by
  have hsplit := keyNames_append (fields.take (keyFields fields).length)
    (fields.drop (keyFields fields).length)
  rw [List.take_append_drop, keyNames_all _ h] at hsplit
  have hle : (keyFields fields).length ≤ fields.length := List.length_filterMap_le _ _
  have hlen : (extractNames (fields.take (keyFields fields).length)).length =
      (keyNames fields).length := by
    rw [extractNames, List.length_map, List.length_take_of_le hle, keyNames, List.length_map]
  rw [hsplit, List.length_append] at hlen
  have hnone : keyNames (fields.drop (keyFields fields).length) = [] :=
    List.length_eq_zero_iff.mp (by omega)
  rw [hsplit, hnone, List.append_nil, extractNames, extractNames, List.map_take]

theorem labelled_keys (overflowChecks : Bool) (names : List String) (values : List PgValue)
    (obj : FelderaRow) (hlen : values.length = names.length)
    (h : Labelled overflowChecks names values obj) (name : String) :
    name ∈ names ↔ obj.lookup name ≠ none := by
  obtain ⟨images, himages, hmem, hnot⟩ := h
  constructor
  · intro hname
    rw [← zip_names names images (hlen.symm.trans himages.length_eq)] at hname
    obtain ⟨⟨f, x⟩, hpair, rfl⟩ := List.mem_map.mp hname
    rw [hmem f x hpair]
    exact Option.some_ne_none x
  · intro hsome
    by_contra hout
    exact hsome (hnot name hout)

theorem labelled_first_iff (overflowChecks : Bool) (fields : List Field)
    (hnodup : (extractNames fields).Nodup) (old : List PgValue)
    (hold : old.length = (keyFields fields).length) (obj : FelderaRow)
    (hobj : Labelled overflowChecks ((extractNames fields).take old.length) old obj) :
    Labelled overflowChecks (keyNames fields) old obj ↔ KeysFirst fields := by
  have hle : (keyFields fields).length ≤ fields.length := List.length_filterMap_le _ _
  have hfirst : old.length = ((extractNames fields).take old.length).length := by
    rw [List.length_take_of_le]
    rw [extractNames, List.length_map]
    omega
  constructor
  · intro hkeys
    have hnames := fun name => (labelled_keys overflowChecks _ old obj hfirst hobj name).trans
      (labelled_keys overflowChecks _ old obj (by rw [keyNames, List.length_map, hold]) hkeys
        name).symm
    rw [KeysFirst, allKeys, List.all_eq_true]
    intro f hf
    have hname : f.name ∈ (extractNames fields).take old.length := by
      rw [hold, extractNames, ← List.map_take]
      exact List.mem_map_of_mem hf
    obtain ⟨g, hg, hkey, heq⟩ := (mem_keyNames fields f.name).mp ((hnames f.name).mp hname)
    rwa [List.inj_on_of_nodup_map hnodup hg (List.mem_of_mem_take hf) heq] at hkey
  · intro h
    rwa [hold, keyNames_first fields h] at hobj

theorem convertOpBatches_append (overflowChecks : Bool) (fieldNames : FieldNames)
    (before after : List ChangeEvent) (out : List FelderaEvent)
    (h : convertOpBatches overflowChecks fieldNames (before ++ after) = .ok out) :
    ∃ outBefore outAfter, out = outBefore ++ outAfter ∧
      convertOpBatches overflowChecks fieldNames before = .ok outBefore ∧
      convertOpBatches overflowChecks fieldNames after = .ok outAfter := by
  induction before generalizing out with
  | nil => exact ⟨[], out, rfl, rfl, h⟩
  | cons event before ih =>
    obtain ⟨first, hfirst, hrest⟩ := (bind_ok_iff _ _ _).mp h
    obtain ⟨rest, hbatch, hout⟩ := (bind_ok_iff _ _ _).mp hrest
    cases hout
    obtain ⟨outBefore, outAfter, rfl, hbefore, hafter⟩ := ih rest hbatch
    refine ⟨first ++ outBefore, outAfter, (List.append_assoc _ _ _).symm, ?_, hafter⟩
    rw [convertOpBatches, hfirst, ok_bind, hbefore, ok_bind, pure_ok]

theorem convertEvent_delete (overflowChecks : Bool) (fieldNames : FieldNames) (op : Op)
    (old : List PgValue) (hop : op = .delete old ∨ ∃ row, op = .update old row) (oid : Oid)
    (part : List FelderaEvent) (h : convertEvent overflowChecks fieldNames ⟨op, oid⟩ = .ok part) :
    ∃ obj rest, convertRow overflowChecks fieldNames oid old = .ok obj ∧
      part = .delete obj :: rest := by
  rcases hop with rfl | ⟨row, rfl⟩
  · obtain ⟨obj, hobj, hpart⟩ := (bind_ok_iff _ _ _).mp h
    cases hpart
    exact ⟨obj, [], hobj, rfl⟩
  · obtain ⟨obj, hobj, hrest⟩ := (bind_ok_iff _ _ _).mp h
    obtain ⟨after, _, hpart⟩ := (bind_ok_iff _ _ _).mp hrest
    cases hpart
    exact ⟨obj, [.insert after], hobj, rfl⟩

/-- In every batch, the element for an old row of key values is labelled with
the key columns' names exactly when these are the first columns. -/
theorem key_delete_iff (overflowChecks : Bool) (fieldNames : FieldNames) (rel : Relation)
    (hnodup : (extractNames rel.fields).Nodup)
    (hnames : fieldNames rel.relationOid = some (extractNames rel.fields)) (op : Op)
    (old : List PgValue) (hop : op = .delete old ∨ ∃ row, op = .update old row)
    (hold : old.length = (keyFields rel.fields).length) (before after : List ChangeEvent)
    (out : List FelderaEvent)
    (h : convertOpBatches overflowChecks fieldNames (before ++ ⟨op, rel.relationOid⟩ :: after) =
      .ok out) :
    ∃ outBefore obj outAfter, convertOpBatches overflowChecks fieldNames before = .ok outBefore ∧
      out = outBefore ++ .delete obj :: outAfter ∧
      (Labelled overflowChecks (keyNames rel.fields) old obj ↔ KeysFirst rel.fields) := by
  obtain ⟨outBefore, outRest, rfl, hbefore, hrest⟩ :=
    convertOpBatches_append overflowChecks fieldNames before _ out h
  obtain ⟨part, hpart, hrest⟩ := (bind_ok_iff _ _ _).mp hrest
  obtain ⟨outAfter, _, hout⟩ := (bind_ok_iff _ _ _).mp hrest
  cases hout
  obtain ⟨obj, rest, hobj, rfl⟩ :=
    convertEvent_delete overflowChecks fieldNames op old hop rel.relationOid part hpart
  have hle : (keyFields rel.fields).length ≤ rel.fields.length := List.length_filterMap_le _ _
  refine ⟨outBefore, obj, rest ++ outAfter, hbefore, rfl, ?_⟩
  apply labelled_first_iff overflowChecks rel.fields hnodup old hold obj
  apply convertRow_labelled rel.relationOid old _ hnames hnodup _ obj hobj
  rw [hold, extractNames, List.length_map]
  exact hle

def secondKey : Relation :=
  ⟨7, "u", "p", [⟨false, "note", .text⟩, ⟨true, "id", .int4⟩], .keys⟩

def firstKey : Relation :=
  ⟨7, "u", "p", [⟨true, "id", .int4⟩, ⟨false, "note", .text⟩], .keys⟩

theorem key_is_called_note :
    ∃ obj, convertOpBatches false (fun _ => some (extractNames secondKey.fields))
        [⟨.delete [.int4 5], 7⟩] = .ok [.delete obj] ∧
      keyNames secondKey.fields = ["id"] ∧ obj.lookup "note" = some (.number 5) ∧
      obj.lookup "id" = none :=
  ⟨collect [("note", .number 5)], rfl, rfl, rfl, rfl⟩

theorem first_key_is_labelled :
    ∃ outBefore obj outAfter,
      convertOpBatches false (fun _ => some (extractNames firstKey.fields)) [] = .ok outBefore ∧
      [FelderaEvent.delete (collect [("id", .number 5)])] = outBefore ++ .delete obj :: outAfter ∧
      (Labelled false (keyNames firstKey.fields) [.int4 5] obj ↔ KeysFirst firstKey.fields) :=
  key_delete_iff false (fun _ => some (extractNames firstKey.fields)) firstKey (by decide) rfl
    (.delete [.int4 5]) [.int4 5] (Or.inl rfl) rfl [] [] _ rfl

end CDC.FelderaKeys
