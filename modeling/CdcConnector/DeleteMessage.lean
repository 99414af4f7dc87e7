import CdcConnector.KeyTuple
import CdcConnector.RowDecoder

/-!
# Deletes by key

A delete under the default identity has one key tuple. It decodes to the key
values exactly for the key layouts the two key loops were written for.
-/

set_option autoImplicit false

namespace CDC.DeleteMessage
open CDC.Fallible CDC.Event CDC.Decoder CDC.RelationDecoder CDC.TupleDecoder CDC.RowDecoder
open CDC.TupleGrammar CDC.KeyTuple

def deleteMessage (oid : Oid) (items : List Item) : Bytes :=
  rowMessage tagD oid (tagK :: tupleBytes items)

theorem parse_delete (rd : RelationData) (hd : rd.inner.replicaId = .keys) (map : RelationMap)
    (hmap : map rd.inner.relationOid = some rd) (items : List Item) :
    Delete.parse (deleteMessage rd.inner.relationOid items) map =
      (parseKeys (tupleBytes items) rd.keyFields rd.keyIndexes rd.inner.fields.length >>= fun r =>
        .ok (⟨.delete r.1, rd.inner.relationOid⟩, rd)) := by
  simp only [Delete.parse, deleteMessage, rowMessage_min, if_false, rowMessage_oid, ok_bind,
    lookup_ok map _ rd hmap, rowMessage_tuples, oldTuple_keys rd hd, pure_ok, bind_assoc]

theorem le_takeWhile_iff {α : Type} (p : α → Bool) (xs : List α) (l : ℕ) (h : l ≤ xs.length) :
    l ≤ (xs.takeWhile p).length ↔ ∀ x ∈ xs.take l, p x = true := by
  induction xs generalizing l with
  | nil =>
    rw [Nat.le_zero.mp h]
    simp
  | cons x xs ih =>
    cases l with
    | zero => simp
    | succ l =>
      have ih := ih l (by simpa using h)
      by_cases hx : p x = true
      · rw [List.takeWhile_cons_of_pos hx, List.take_succ_cons, List.length_cons,
          Nat.succ_le_succ_iff, ih]
        simp [hx]
      · rw [List.takeWhile_cons_of_neg hx]
        simp [hx]

theorem leading_iff (indexes : List ℕ) :
    indexes.length - 1 ≤ (indexes.takeWhile (· < indexes.length - 1)).length ↔ Leading indexes := by
  rw [le_takeWhile_iff _ _ _ (Nat.sub_le _ 1), ← List.dropLast_eq_take]
  simp [Leading]

theorem keyIndexes_all (i : ℕ) (fields : List Field) (h : allKeys fields = true) :
    keyIndexesFrom i fields = List.range' i fields.length := by
  induction fields generalizing i with
  | nil => rfl
  | cons f fields ih =>
    simp only [allKeys, List.all_cons, Bool.and_eq_true] at h
    rw [keyIndexesFrom_key i f fields h.1, ih (i+1) h.2, List.length_cons, List.range'_succ]

theorem allKeys_leading (fields : List Field) (h : allKeys fields = true) :
    Leading (keyIndexes fields) := by
  have hall : keyIndexes fields = List.range' 0 fields.length := keyIndexes_all 0 fields h
  intro i hi
  obtain ⟨j, hj, rfl⟩ := List.getElem_of_mem hi
  rw [hall, List.length_dropLast, List.length_range'] at hj
  simp only [hall, List.getElem_dropLast, List.getElem_range', List.length_range']
  omega

theorem keyIndexes_ne_nil (fields : List Field) (h : ∃ f ∈ fields, f.isKey = true) :
    keyIndexes fields ≠ [] := by
  obtain ⟨f, hf, hkey⟩ := h
  have hmem : (⟨f.name, f.kind⟩ : KeyField) ∈ keyFields fields := by
    rw [keyFields, List.mem_filterMap]
    exact ⟨f, hf, by simp [hkey]⟩
  have hlen : (keyFields fields).length = (keyIndexes fields).length := keyFields_length 0 fields
  intro hnil
  rw [hnil, List.length_nil, List.length_eq_zero_iff] at hlen
  rw [hlen] at hmem
  cases hmem

theorem take_keyValues_iff (fields : List Field) (items : List Item)
    (hlen : fields.length = items.length) (hsome : keyIndexes fields ≠ []) :
    (keyValues fields items).take (((keyIndexes fields).takeWhile
        (· < (keyIndexes fields).length - 1)).length + 1) = keyValues fields items ↔
      Leading (keyIndexes fields) := by
  have hcount : (keyValues fields items).length = (keyIndexes fields).length :=
    (keyValues_length fields items hlen).trans (keyFields_length 0 fields)
  have hpos : 0 < (keyIndexes fields).length := List.length_pos_of_ne_nil hsome
  rw [← leading_iff]
  constructor
  · intro h
    have hshort := congrArg List.length h
    rw [List.length_take, hcount] at hshort
    omega
  · intro h
    exact List.take_of_length_le (by omega)

/-- For every relation the decoder builds with the default identity and some
key, a well-formed delete decodes to all its key values exactly when the keys
are leading and, beyond six columns, every column is a key. -/
theorem delete_exact_iff (data : Bytes) (rd : RelationData)
    (hparse : RelationDecoder.parse data = .ok rd) (hd : rd.inner.replicaId = .keys)
    (hkey : ∃ f ∈ rd.inner.fields, f.isKey = true) (map : RelationMap)
    (hmap : map rd.inner.relationOid = some rd) (items : List Item)
    (hitems : List.Forall₂ KeyItem rd.inner.fields items) :
    Delete.parse (deleteMessage rd.inner.relationOid items) map =
        .ok (⟨.delete (keyValues rd.inner.fields items), rd.inner.relationOid⟩, rd) ↔
      Leading rd.keyIndexes ∧ (rd.inner.fields.length ≤ 6 ∨ allKeys rd.inner.fields = true) := by
  obtain ⟨hkeys, hindexes, hlt⟩ := parse_built data rd hparse
  have hsome := keyIndexes_ne_nil rd.inner.fields hkey
  have hpos : 1 ≤ rd.inner.fields.length := by
    obtain ⟨f, hf, _⟩ := hkey
    exact List.length_pos_of_mem hf
  rw [parse_delete rd hd map hmap items, hkeys, hindexes, ← List.append_nil (tupleBytes items)]
  by_cases hfew : rd.inner.fields.length ≤ 6
  · obtain ⟨size, heq, _⟩ := parseKeys_few rd.inner.fields items [] hlt hitems ⟨hpos, hfew⟩ hsome
    rw [heq, ok_bind]
    simp [take_keyValues_iff rd.inner.fields items hitems.length_eq hsome, hfew]
  · cases hall : allKeys rd.inner.fields with
    | true =>
      rw [parseKeys_all rd.inner.fields items [] hlt hitems (by omega) hall, ok_bind]
      simp [allKeys_leading rd.inner.fields hall]
    | false =>
      constructor
      · intro h
        obtain ⟨r, hr, _⟩ := (bind_ok_iff _ _ _).mp h
        exact absurd hr (parseKeys_mixed rd.inner.fields items [] hlt hitems (by omega) hall r)
      · rintro ⟨_, hn | hn⟩
        · exact absurd hn hfew
        · cases hn

def trailingKeys : Bytes :=
  [0x52, 0,0,0,1, 0x70,0, 0x75,0, 0x64, 0,3,
    0, 0x61,0, 0,0,0,23, 0,0,0,0, 1, 0x62,0, 0,0,0,23, 0,0,0,0, 1, 0x63,0, 0,0,0,23, 0,0,0,0]

def trailingRelation : RelationData :=
  ⟨⟨1, "u", "p", [⟨false, "a", .int4⟩, ⟨true, "b", .int4⟩, ⟨true, "c", .int4⟩], .keys⟩,
    [⟨"b", .int4⟩, ⟨"c", .int4⟩], [1, 2]⟩

theorem trailing_keys_are_cut :
    RelationDecoder.parse trailingKeys = .ok trailingRelation ∧
      List.Forall₂ KeyItem trailingRelation.inner.fields
        [.null, .binary (.int4 1), .binary (.int4 2)] ∧
      Delete.parse (deleteMessage 1 [.null, .binary (.int4 1), .binary (.int4 2)])
        (fun _ => some trailingRelation) = .ok (⟨.delete [.int4 1], 1⟩, trailingRelation) ∧
      keyValues trailingRelation.inner.fields [.null, .binary (.int4 1), .binary (.int4 2)] =
        [.int4 1, .int4 2] := by
  refine ⟨by decide, ?_, by decide, by decide⟩
  simp [trailingRelation, KeyItem, Item.present, Item.Fits, Datum.payload, Datum.kind]

def leadingKey : Bytes :=
  [0x52, 0,0,0,1, 0x70,0, 0x75,0, 0x64, 0,2,
    1, 0x61,0, 0,0,0,23, 0,0,0,0, 0, 0x62,0, 0,0,0,23, 0,0,0,0]

def leadingRelation : RelationData :=
  ⟨⟨1, "u", "p", [⟨true, "a", .int4⟩, ⟨false, "b", .int4⟩], .keys⟩, [⟨"a", .int4⟩], [0]⟩

theorem leading_key_is_exact :
    Delete.parse (deleteMessage 1 [.binary (.int4 7), .null]) (fun _ => some leadingRelation) =
      .ok (⟨.delete [.int4 7], 1⟩, leadingRelation) :=
  (delete_exact_iff leadingKey leadingRelation (by decide) rfl (by decide)
    (fun _ => some leadingRelation) rfl [.binary (.int4 7), .null]
    (by simp [leadingRelation, KeyItem, Item.present, Item.Fits, Datum.payload, Datum.kind])).mpr
    (by decide)

end CDC.DeleteMessage
