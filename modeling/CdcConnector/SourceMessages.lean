import CdcConnector.SinkTable
import CdcConnector.UpdateMessage
import CdcConnector.WalReader

/-!
# The messages of the source's operations

The server writes a row message for every operation on the table, each column
as text or in binary form. Of the operations the sink follows, inserts and
updates decode to the events they stand for, and so do deletes where the key
decoder finds all keys.
-/

set_option autoImplicit false

namespace CDC.SourceMessages
open CDC.Fallible CDC.Event CDC.Decoder CDC.RelationDecoder CDC.TupleDecoder CDC.RowDecoder
open CDC.TupleGrammar CDC.KeyTuple CDC.DeleteMessage CDC.UpdateMessage CDC.WalReader
open CDC.SinkDatabase CDC.SourceTable CDC.SinkTable

/-- A message the server may write for an operation, by the default identity:
the old key goes along only when it changes. -/
inductive Encodes (rd : RelationData) : SourceOp → Bytes → Prop
  | insert (row : TableRow) (items : List Item)
      (hitems : List.Forall₂ (Written false) rd.inner.fields items)
      (hvalues : items.map Item.value = row.map value) :
      Encodes rd (.insert row) (rowMessage tagI rd.inner.relationOid (tagN :: tupleBytes items))
  | update (old new : TableRow) (unchanged : List Bool) (items : List Item)
      (hkey : keyCells rd.inner old = keyCells rd.inner new)
      (hitems : List.Forall₂ (Written true) rd.inner.fields items)
      (hvalues : items.map Item.value = sent new unchanged) :
      Encodes rd (.update old new unchanged) (updateMessage rd.inner.relationOid .none items)
  | move (old new : TableRow) (unchanged : List Bool) (keys items : List Item)
      (hkey : keyCells rd.inner old ≠ keyCells rd.inner new)
      (hkeys : List.Forall₂ KeyItem rd.inner.fields keys)
      (hold : keyValues rd.inner.fields keys = (keyCells rd.inner old).map value)
      (hitems : List.Forall₂ (Written true) rd.inner.fields items)
      (hvalues : items.map Item.value = sent new unchanged) :
      Encodes rd (.update old new unchanged) (updateMessage rd.inner.relationOid (.key keys) items)
  | delete (old : TableRow) (keys : List Item)
      (hkeys : List.Forall₂ KeyItem rd.inner.fields keys)
      (hold : keyValues rd.inner.fields keys = (keyCells rd.inner old).map value) :
      Encodes rd (.delete old) (deleteMessage rd.inner.relationOid keys)

/-- The operations the whole way carries. -/
def carried (rel : Relation) : SourceOp → Bool
  | .delete old => replicable rel (.delete old) && decide (Leading (keyIndexes rel.fields)) &&
      (decide (rel.fields.length ≤ 6) || allKeys rel.fields)
  | op => replicable rel op

theorem carried_replicable (rel : Relation) (op : SourceOp) (h : carried rel op = true) :
    replicable rel op = true := by
  cases op with
  | delete old =>
    simp only [carried, Bool.and_eq_true] at h
    exact h.1.1
  | insert row => exact h
  | update old new unchanged => exact h

section Message
variable (rd : RelationData) (hb : Built rd) (hd : rd.inner.replicaId = .keys) (map : RelationMap)
  (hmap : map rd.inner.relationOid = some rd)
include hb hmap

theorem insert_reads (items : List Item)
    (hitems : List.Forall₂ (Written false) rd.inner.fields items) :
    Insert.parse (rowMessage tagI rd.inner.relationOid (tagN :: tupleBytes items)) map =
      .ok (⟨.insert (items.map Item.value), rd.inner.relationOid⟩, rd) := by
  have hi : (index (tagN :: tupleBytes items) 0 : Decoded UInt8) = .ok tagN := rfl
  have hs : (sliceFrom (tagN :: tupleBytes items) 1 : Decoded Bytes) = .ok (tupleBytes items) :=
    sliceFrom_append [tagN] (tupleBytes items)
  have hp := parse_tuple rd.inner.fields false items [] hb.fields_lt hitems
  rw [List.append_nil] at hp
  have hnew : getNewTupleData (tagN :: tupleBytes items) rd.inner.fields false =
      .ok (items.map Item.value) := by
    simp only [getNewTupleData, List.isEmpty_cons, Bool.false_eq_true, if_false, hi, ok_bind, ne_eq,
      not_true_eq_false, hs, hp, pure_ok]
  simp only [Insert.parse, rowMessage_min, if_false, rowMessage_oid, ok_bind,
    lookup_ok map _ rd hmap, rowMessage_tuples, hnew, pure_ok]

include hd in
theorem delete_reads (hkey : ∃ f ∈ rd.inner.fields, f.isKey = true) (keys : List Item)
    (hkeys : List.Forall₂ KeyItem rd.inner.fields keys) (hleading : Leading (keyIndexes rd.inner.fields))
    (hfew : rd.inner.fields.length ≤ 6 ∨ allKeys rd.inner.fields = true) :
    Delete.parse (deleteMessage rd.inner.relationOid keys) map =
      .ok (⟨.delete (keyValues rd.inner.fields keys), rd.inner.relationOid⟩, rd) := by
  obtain ⟨hkf, hki, hlt⟩ := hb
  have hsome := keyIndexes_ne_nil rd.inner.fields hkey
  have hpos : 1 ≤ rd.inner.fields.length := by
    obtain ⟨f, hf, _⟩ := hkey
    exact List.length_pos_of_mem hf
  rw [parse_delete rd hd map hmap keys, hkf, hki, ← List.append_nil (tupleBytes keys)]
  by_cases hsix : rd.inner.fields.length ≤ 6
  · obtain ⟨size, heq, _⟩ := parseKeys_few rd.inner.fields keys [] hlt hkeys ⟨hpos, hsix⟩ hsome
    rw [heq, ok_bind, (take_keyValues_iff rd.inner.fields keys hkeys.length_eq hsome).mpr hleading]
  · rw [parseKeys_all rd.inner.fields keys [] hlt hkeys (by omega) (hfew.resolve_left hsix), ok_bind]

theorem encodes_action (hd : rd.inner.replicaId = .keys)
    (hkey : ∃ f ∈ rd.inner.fields, f.isKey = true) (op : SourceOp)
    (data : Bytes) (h : Encodes rd op data) (hop : carried rd.inner op = true) :
    action map (.xlogData data) = .change (.ok (toEvent rd.inner op, rd)) := by
  cases h with
  | insert row items hitems hvalues =>
    have hread := insert_reads rd hb map hmap items hitems
    rw [hvalues] at hread
    exact congrArg Action.change hread
  | update old new unchanged items hsame hitems hvalues =>
    have hread := update_of_old rd map hmap [] [] items hb.fields_lt hitems (oldTuple_absent rd _)
    rw [hvalues] at hread
    have hevent : toEvent rd.inner (.update old new unchanged) =
        ⟨.update [] (sent new unchanged), rd.inner.relationOid⟩ := by
      rw [toEvent, if_pos hsame]
    rw [hevent]
    exact congrArg Action.change hread
  | move old new unchanged keys items hmoved _ _ _ _ =>
    simp only [carried, replicable, Bool.and_eq_true, decide_eq_true_eq] at hop
    exact absurd hop.1.symm hmoved
  | delete old keys hkeys hold =>
    simp only [carried, Bool.and_eq_true, Bool.or_eq_true, decide_eq_true_eq] at hop
    have hread := delete_reads rd hb hd map hmap hkey keys hkeys hop.1.2 hop.2
    rw [hold] at hread
    exact congrArg Action.change hread

end Message

end CDC.SourceMessages
