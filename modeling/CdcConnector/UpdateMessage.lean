import CdcConnector.DeleteMessage

/-!
# Updates in their three layouts

An update has no old tuple, a full old row or an old key, and then the new
row, which is found by the size reported for the old tuple. Without an old
tuple and with a full one the update decodes exactly. With a key it does only
where the general key loop applies and every column is a key.
-/

set_option autoImplicit false

namespace CDC.UpdateMessage
open CDC.Fallible CDC.Event CDC.Decoder CDC.RelationDecoder CDC.TupleDecoder CDC.RowDecoder
open CDC.TupleGrammar CDC.KeyTuple CDC.DeleteMessage

inductive OldTuple where
  | none
  | full (items : List Item)
  | key (items : List Item)
  deriving DecidableEq

namespace OldTuple

def bytes : OldTuple → Bytes
  | none => []
  | full items => tagO :: tupleBytes items
  | key items => tagK :: tupleBytes items

def values (fields : List Field) : OldTuple → List PgValue
  | none => []
  | full items => items.map Item.value
  | key items => keyValues fields items

/-- What the server writes for the relation's replica identity. -/
def WellFormed (relation : Relation) : OldTuple → Prop
  | none => True
  | full items => relation.replicaId = .row ∧
      List.Forall₂ (Written false) relation.fields items
  | key items => relation.replicaId = .keys ∧ List.Forall₂ KeyItem relation.fields items

def readable (fields : List Field) : OldTuple → Bool
  | none => true
  | full _ => true
  | key _ => allKeys fields && !(1 ≤ fields.length && fields.length ≤ 6)

end OldTuple

def updateMessage (oid : Oid) (old : OldTuple) (items : List Item) : Bytes :=
  rowMessage tagU oid (old.bytes ++ tagN :: tupleBytes items)

theorem newTuple_reads (fields : List Field) (items : List Item) (hlt : fields.length < 2^16)
    (hitems : List.Forall₂ (Written true) fields items) :
    getNewTupleData (tagN :: tupleBytes items) fields true = .ok (items.map Item.value) := by
  have hi : (index (tagN :: tupleBytes items) 0 : Decoded UInt8) = .ok tagN := rfl
  have hs : (sliceFrom (tagN :: tupleBytes items) 1 : Decoded Bytes) = .ok (tupleBytes items) :=
    sliceFrom_append [tagN] (tupleBytes items)
  have hp := parse_tuple fields true items [] hlt hitems
  rw [List.append_nil] at hp
  simp only [getNewTupleData, List.isEmpty_cons, Bool.false_eq_true, if_false, hi, ok_bind, ne_eq,
    not_true_eq_false, hs, hp, pure_ok]

theorem newTuple_tag (tag : UInt8) (rest : Bytes) (fields : List Field) (h : tag ≠ tagN) :
    getNewTupleData (tag::rest) fields true = fail (.wrongNewTupleKey tag) := by
  have hi : (index (tag::rest) 0 : Decoded UInt8) = .ok tag := rfl
  simp only [getNewTupleData, List.isEmpty_cons, Bool.false_eq_true, if_false, hi, ok_bind, h, ne_eq,
    not_false_eq_true, if_true]

theorem oldTuple_full (rd : RelationData) (hd : rd.inner.replicaId = .row) (items : List Item)
    (rest : Bytes) (hlt : rd.inner.fields.length < 2^16)
    (hitems : List.Forall₂ (Written false) rd.inner.fields items) :
    getOldTupleData (tagO :: (tupleBytes items ++ rest)) rd =
      .ok (items.map Item.value, (tupleBytes items).length + 1) := by
  have hi : (index (tagO :: (tupleBytes items ++ rest)) 0 : Decoded UInt8) = .ok tagO := rfl
  have hs : (sliceFrom (tagO :: (tupleBytes items ++ rest)) 1 : Decoded Bytes) =
      .ok (tupleBytes items ++ rest) := sliceFrom_append [tagO] _
  have hne : ¬ tagO = tagK := by decide
  have hp := parse_tuple rd.inner.fields false items rest hlt hitems
  simp only [getOldTupleData, List.isEmpty_cons, Bool.false_eq_true, if_false, hi, ok_bind, hne,
    if_true, hd, ne_eq, not_true_eq_false, hs, hp, pure_ok]

theorem oldTuple_absent (rd : RelationData) (rest : Bytes) :
    oldOrEmpty (getOldTupleData (tagN::rest) rd) = .ok ([], 0) := by
  have hi : (index (tagN::rest) 0 : Decoded UInt8) = .ok tagN := rfl
  have hk : ¬ tagN = tagK := by decide
  have ho : ¬ tagN = tagO := by decide
  simp only [getOldTupleData, List.isEmpty_cons, Bool.false_eq_true, if_false, hi, ok_bind, hk, ho]
  rfl

theorem oldOrEmpty_ok (x : Decoded (List PgValue × ℕ)) (r : List PgValue × ℕ)
    (h : oldOrEmpty x = .ok r) : x = .ok r ∨ r = ([], 0) := by
  unfold oldOrEmpty at h
  split at h
  · split at h
    · exact Or.inr (Except.ok.inj h).symm
    · cases h
  · exact Or.inl h

section Message
variable (rd : RelationData) (map : RelationMap) (hmap : map rd.inner.relationOid = some rd)
include hmap

theorem parse_update (tuples : Bytes) :
    Update.parse (rowMessage tagU rd.inner.relationOid tuples) map =
      (oldOrEmpty (getOldTupleData tuples rd) >>= fun r =>
        if tuples.length < r.2 then fail .truncatedInput
        else getNewTupleData (tuples.drop r.2) rd.inner.fields true >>= fun row =>
          .ok (⟨.update r.1 row, rd.inner.relationOid⟩, rd)) := by
  have hslice : ∀ n, ¬ tuples.length < n →
      (sliceFrom (rowMessage tagU rd.inner.relationOid tuples) (n + 5) : Decoded Bytes) =
        .ok (tuples.drop n) := by
    intro n hn
    rw [sliceFrom_ok _ _ (by rw [rowMessage_length]; omega), rowMessage]
    have hdrop : n + 5 = (tagU :: BigEndian.toBytes 4 rd.inner.relationOid.toNat).length + n := by
      rw [List.length_cons, BigEndian.toBytes_length]
      omega
    rw [hdrop, ← List.cons_append, List.drop_length_add_append]
  simp only [Update.parse, rowMessage_min, if_false, rowMessage_oid, ok_bind,
    lookup_ok map _ rd hmap, rowMessage_tuples]
  refine congrArg _ (funext fun r => ?_)
  have hlen : (rowMessage tagU rd.inner.relationOid tuples).length < r.2 + 5 ↔
      tuples.length < r.2 := by
    rw [rowMessage_length]
    omega
  simp only [hlen]
  split
  · rfl
  · next hn => rw [hslice r.2 hn, ok_bind]; rfl

theorem update_of_old (old : Bytes) (vals : List PgValue) (items : List Item)
    (hlt : rd.inner.fields.length < 2^16)
    (hitems : List.Forall₂ (Written true) rd.inner.fields items)
    (hold : oldOrEmpty (getOldTupleData (old ++ tagN :: tupleBytes items) rd) =
      .ok (vals, old.length)) :
    Update.parse (rowMessage tagU rd.inner.relationOid (old ++ tagN :: tupleBytes items)) map =
      .ok (⟨.update vals (items.map Item.value), rd.inner.relationOid⟩, rd) := by
  have hlen : ¬ (old ++ tagN :: tupleBytes items).length < old.length := by
    rw [List.length_append]
    omega
  rw [parse_update rd map hmap, hold, ok_bind, if_neg hlen, List.drop_left,
    newTuple_reads rd.inner.fields items hlt hitems, ok_bind]

theorem keyed_update (hd : rd.inner.replicaId = .keys) (tuple : Bytes) (event : ChangeEvent)
    (h : Update.parse (rowMessage tagU rd.inner.relationOid (tagK::tuple)) map = .ok (event, rd)) :
    ∃ vals size row, parseKeys tuple rd.keyFields rd.keyIndexes rd.inner.fields.length =
        .ok (vals, size) ∧
      getNewTupleData (tuple.drop size) rd.inner.fields true = .ok row ∧
      event = ⟨.update vals row, rd.inner.relationOid⟩ := by
  rw [parse_update rd map hmap, oldTuple_keys rd hd, bind_ok_iff] at h
  obtain ⟨r, hr, h⟩ := h
  split_ifs at h with hlen
  · cases h
  obtain ⟨row, hrow, h⟩ := (bind_ok_iff _ _ _).mp h
  rcases oldOrEmpty_ok _ _ hr with hr | rfl
  · obtain ⟨⟨vals, size⟩, hkeys, hr⟩ := (bind_ok_iff _ _ _).mp hr
    cases hr
    cases h
    exact ⟨vals, size, row, hkeys, hrow, rfl⟩
  · rw [List.drop_zero, newTuple_tag tagK tuple rd.inner.fields (by decide)] at hrow
    cases hrow

end Message

theorem parseKeys_none (fields : List Field) (items : List Item) (rest : Bytes)
    (hlt : fields.length < 2^16) (hitems : List.Forall₂ KeyItem fields items)
    (hfew : 1 ≤ fields.length ∧ fields.length ≤ 6) (hnone : keyIndexes fields = []) :
    parseKeys (tupleBytes items ++ rest) (keyFields fields) (keyIndexes fields) fields.length =
      panicked := by
  obtain ⟨n, hn⟩ := Nat.exists_eq_add_of_le hfew.1
  rw [parseKeys_loops fields items rest hlt hitems, if_pos hfew, hnone, hn, Nat.add_comm]
  rfl

theorem few_keys_fail (rd : RelationData) (hb : Built rd) (hd : rd.inner.replicaId = .keys)
    (map : RelationMap) (hmap : map rd.inner.relationOid = some rd) (keys items : List Item)
    (hkeys : List.Forall₂ KeyItem rd.inner.fields keys)
    (hitems : List.Forall₂ (Written true) rd.inner.fields items)
    (hfew : 1 ≤ rd.inner.fields.length ∧ rd.inner.fields.length ≤ 6) :
    Update.parse (updateMessage rd.inner.relationOid (.key keys) items) map ≠
      .ok (⟨.update (keyValues rd.inner.fields keys) (items.map Item.value),
        rd.inner.relationOid⟩, rd) := by
  obtain ⟨hkf, hki, hlt⟩ := hb
  intro h
  obtain ⟨vals, size, row, hvals, hrow, hevent⟩ :=
    keyed_update rd map hmap hd (tupleBytes keys ++ tagN :: tupleBytes items) _ h
  rw [hkf, hki] at hvals
  by_cases hnone : keyIndexes rd.inner.fields = []
  · rw [parseKeys_none rd.inner.fields keys _ hlt hkeys hfew hnone] at hvals
    cases hvals
  · obtain ⟨size', heq, hsize⟩ := parseKeys_few rd.inner.fields keys (tagN :: tupleBytes items) hlt
      hkeys hfew hnone
    rw [heq] at hvals
    cases hvals
    have hcut := (Op.update.inj (ChangeEvent.mk.inj hevent).1).1.symm
    rw [take_keyValues_iff _ _ hkeys.length_eq hnone, ← leading_iff] at hcut
    have hlen : items.length = rd.inner.fields.length := hitems.length_eq.symm
    have hhigh : items.length / 256 = 0 := by omega
    have hdrop : (tupleBytes keys ++ tagN :: tupleBytes items).drop ((tupleBytes keys).length + 1) =
        0 :: (BigEndian.toBytes 1 items.length ++ items.flatMap Item.bytes) := by
      rw [List.drop_length_add_append, List.drop_one, List.tail_cons, tupleBytes,
        BigEndian.toBytes, pow_one, hhigh, List.cons_append]
      rfl
    rw [hsize hcut, hdrop, newTuple_tag 0 _ _ (by decide)] at hrow
    cases hrow

/-- For every relation the decoder builds and every well-formed update for it,
the update decodes to its old values and its new row exactly when it has no
old tuple, a full one, or a key of all columns that are none or more than
six. -/
theorem update_exact_iff (data : Bytes) (rd : RelationData)
    (hparse : RelationDecoder.parse data = .ok rd) (map : RelationMap)
    (hmap : map rd.inner.relationOid = some rd) (old : OldTuple) (items : List Item)
    (hold : old.WellFormed rd.inner) (hitems : List.Forall₂ (Written true) rd.inner.fields items) :
    Update.parse (updateMessage rd.inner.relationOid old items) map =
        .ok (⟨.update (old.values rd.inner.fields) (items.map Item.value),
          rd.inner.relationOid⟩, rd) ↔
      old.readable rd.inner.fields = true := by
  have hb := parse_built data rd hparse
  have hread := update_of_old rd map hmap old.bytes (old.values rd.inner.fields) items hb.fields_lt
    hitems
  cases old with
  | none => exact iff_of_true (hread (oldTuple_absent rd _)) rfl
  | full olds =>
    obtain ⟨hd, holds⟩ := hold
    refine iff_of_true (hread ?_) rfl
    have hf := oldTuple_full rd hd olds (tagN :: tupleBytes items) hb.fields_lt holds
    rw [OldTuple.bytes, List.cons_append, hf]
    rfl
  | key keys =>
    obtain ⟨hd, hkeys⟩ := hold
    by_cases hfew : 1 ≤ rd.inner.fields.length ∧ rd.inner.fields.length ≤ 6
    · refine iff_of_false (few_keys_fail rd hb hd map hmap keys items hkeys hitems hfew) ?_
      simp [OldTuple.readable, hfew]
    · obtain ⟨hkf, hki, hlt⟩ := hb
      cases hall : allKeys rd.inner.fields with
      | true =>
        refine iff_of_true (hread ?_) ?_
        · have hp := parseKeys_all rd.inner.fields keys (tagN :: tupleBytes items) hlt hkeys hfew hall
          rw [OldTuple.bytes, List.cons_append, oldTuple_keys rd hd, hkf, hki, hp]
          rfl
        · simp only [OldTuple.readable, hall, Bool.true_and, Bool.not_eq_true',
            Bool.and_eq_false_iff, decide_eq_false_iff_not]
          omega
      | false =>
        refine iff_of_false (fun h => ?_) (by simp [OldTuple.readable, hall])
        obtain ⟨vals, size, _, hvals, _⟩ := keyed_update rd map hmap hd _ _ h
        rw [hkf, hki] at hvals
        exact parseKeys_mixed rd.inner.fields keys _ hlt hkeys hfew hall _ hvals

/-- An update of the row 7 to the row 8, 9 with the old key, in relation
`p.u (a, b)` with key `a`. -/
theorem old_key_shifts_new_row :
    RelationDecoder.parse leadingKey = .ok leadingRelation ∧
      (OldTuple.key [.binary (.int4 7), .null]).WellFormed leadingRelation.inner ∧
      List.Forall₂ (Written true) leadingRelation.inner.fields
        [.binary (.int4 8), .binary (.int4 9)] ∧
      Update.parse (updateMessage 1 (.key [.binary (.int4 7), .null])
          [.binary (.int4 8), .binary (.int4 9)]) (fun _ => some leadingRelation) =
        fail (.wrongNewTupleKey 0) := by
  refine ⟨by decide, ⟨rfl, ?_⟩, ?_, by decide⟩
  · simp [leadingRelation, KeyItem, Item.present, Item.Fits, Datum.payload, Datum.kind]
  · simp [leadingRelation, Written, Item.Fits, Datum.payload, Datum.kind, FieldAccess.getKind]

theorem absent_old_is_exact :
    Update.parse (updateMessage 1 .none [.binary (.int4 7), .toasted])
        (fun _ => some leadingRelation) =
      .ok (⟨.update [] [.int4 7, .toasted], 1⟩, leadingRelation) :=
  (update_exact_iff leadingKey leadingRelation (by decide) (fun _ => some leadingRelation) rfl
    .none [.binary (.int4 7), .toasted] trivial
    (by simp [leadingRelation, Written, Item.Fits, Datum.payload, Datum.kind,
      FieldAccess.getKind])).mpr rfl

end CDC.UpdateMessage
