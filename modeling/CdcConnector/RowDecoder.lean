import CdcConnector.TupleDecoder

/-!
# Insert, update and delete messages

A row message names a relation the reader has seen. An update without an old
tuple shows as the wrong old tuple key `N`; with one, the new tuple starts
where the old tuple reports its end.
-/

set_option autoImplicit false

namespace CDC.RowDecoder
open CDC.Fallible CDC.Event CDC.Decoder CDC.RelationDecoder

abbrev RelationMap := Oid → Option RelationData

def getOldTupleData (data : Bytes) (relation : RelationData) : Decoded (List PgValue × ℕ) := do
  if data.isEmpty then fail .truncatedInput
  else
    let tag ← index data 0
    if tag = tagK then
      if relation.inner.replicaId ≠ .keys then fail (.wrongOldTupleKind .keys)
      else
        let rest ← sliceFrom data 1
        let (keys, size) ← TupleDecoder.parseKeys rest relation.keyFields relation.keyIndexes
          relation.inner.fields.length
        return (keys, size + 1)
    else if tag = tagO then
      if relation.inner.replicaId ≠ .row then fail (.wrongOldTupleKind .row)
      else
        let rest ← sliceFrom data 1
        let (row, size) ← TupleDecoder.parse rest relation.inner.fields false
        return (row, size + 1)
    else fail (.wrongOldTupleKey tag)

def getNewTupleData (data : Bytes) (fields : List Field) (isUpdate : Bool) :
    Decoded (List PgValue) := do
  if data.isEmpty then fail .truncatedInput
  else
    let tag ← index data 0
    if tag ≠ tagN then fail (.wrongNewTupleKey tag)
    else
      let rest ← sliceFrom data 1
      let (tuple, _) ← TupleDecoder.parse rest fields isUpdate
      return tuple

def lookup (relationMap : RelationMap) (oid : Oid) : Decoded RelationData :=
  match relationMap oid with
  | some relation => .ok relation
  | none => fail (.unknownRelation oid)

def Insert.parse (data : Bytes) (relationMap : RelationMap) :
    Decoded (ChangeEvent × RelationData) := do
  if data.length < 5 then fail .truncatedInput
  else
    let relationOid ← readU32 data 1
    let relation ← lookup relationMap relationOid
    let rest ← sliceFrom data 5
    let row ← getNewTupleData rest relation.inner.fields false
    return (⟨.insert row, relation.inner.relationOid⟩, relation)

/-- An update whose first tuple is the new one has no old values. -/
def oldOrEmpty (old : Decoded (List PgValue × ℕ)) : Decoded (List PgValue × ℕ) :=
  match old with
  | .error (.error (.wrongOldTupleKey b)) => if b = tagN then .ok ([], 0) else old
  | _ => old

def Update.parse (data : Bytes) (relationMap : RelationMap) :
    Decoded (ChangeEvent × RelationData) := do
  if data.length < 5 then fail .truncatedInput
  else
    let relationOid ← readU32 data 1
    let relation ← lookup relationMap relationOid
    let rest ← sliceFrom data 5
    let (old, oldDataEnd) ← oldOrEmpty (getOldTupleData rest relation)
    if data.length < oldDataEnd + 5 then fail .truncatedInput
    else
      let newStart ← sliceFrom data (oldDataEnd + 5)
      let newData ← getNewTupleData newStart relation.inner.fields true
      return (⟨.update old newData, relationOid⟩, relation)

def Delete.parse (data : Bytes) (relationMap : RelationMap) :
    Decoded (ChangeEvent × RelationData) := do
  if data.length < 5 then fail .truncatedInput
  else
    let relationOid ← readU32 data 1
    let relation ← lookup relationMap relationOid
    let rest ← sliceFrom data 5
    let (old, _) ← getOldTupleData rest relation
    return (⟨.delete old, relationOid⟩, relation)

def rowMessage (tag : UInt8) (oid : Oid) (tuples : Bytes) : Bytes :=
  tag :: (BigEndian.toBytes 4 oid.toNat ++ tuples)

section Message
variable (tag : UInt8) (oid : Oid) (tuples : Bytes)

theorem rowMessage_length : (rowMessage tag oid tuples).length = 5 + tuples.length := by
  simp [rowMessage]
  omega

theorem rowMessage_min : ¬ (rowMessage tag oid tuples).length < 5 := by
  rw [rowMessage_length]
  omega

theorem rowMessage_oid : readU32 (rowMessage tag oid tuples) 1 = .ok oid :=
  readU32_at [tag] tuples oid 1 rfl

theorem rowMessage_tuples :
    (sliceFrom (rowMessage tag oid tuples) 5 : Decoded Bytes) = .ok tuples := by
  have hs := sliceFrom_append (ε := DecoderError) (tag :: BigEndian.toBytes 4 oid.toNat) tuples
  rwa [List.length_cons, BigEndian.toBytes_length] at hs

end Message

theorem lookup_ok (map : RelationMap) (oid : Oid) (rd : RelationData) (h : map oid = some rd) :
    lookup map oid = .ok rd := by
  rw [lookup, h]

theorem oldTuple_keys (rd : RelationData) (hd : rd.inner.replicaId = .keys) (tuple : Bytes) :
    getOldTupleData (tagK :: tuple) rd =
      (TupleDecoder.parseKeys tuple rd.keyFields rd.keyIndexes rd.inner.fields.length >>= fun r =>
        .ok (r.1, r.2 + 1)) := by
  have hi : (index (tagK :: tuple) 0 : Decoded UInt8) = .ok tagK := rfl
  have hs : (sliceFrom (tagK :: tuple) 1 : Decoded Bytes) = .ok tuple :=
    sliceFrom_append [tagK] tuple
  simp only [getOldTupleData, List.isEmpty_cons, Bool.false_eq_true, if_false, hi, ok_bind, if_true,
    hd, ne_eq, not_true_eq_false, hs]
  rfl

end CDC.RowDecoder
