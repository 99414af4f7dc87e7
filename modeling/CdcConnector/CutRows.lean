import CdcConnector.RowDecoder
import CdcConnector.TupleGrammar
import CdcConnector.TuplePanics

/-!
# Row messages cut short

A written row message is cut at any byte. A cut inside the payload of a binary
text is read past the end of the input; every other cut is reported.
-/

set_option autoImplicit false

namespace CDC.CutRows
open CDC.Fallible CDC.Event CDC.Decoder CDC.RelationDecoder CDC.TupleDecoder CDC.RowDecoder
open CDC.TupleSyntax CDC.TupleGrammar CDC.TuplePanics

/-- A cut of an item that goes unnoticed, `n` bytes into it. -/
def itemCut : Item → ℕ → Bool
  | .binary (.text _), n => 5 ≤ n
  | _, _ => false

def itemsCut : List Item → ℕ → Bool
  | [], _ => false
  | item::items, n =>
    if n < item.bytes.length then itemCut item n else itemsCut items (n - item.bytes.length)

/-- A cut of a row message: its tuple starts at the sixth byte with a tag, the
items behind their count. -/
def rowCut (items : List Item) (n : ℕ) : Bool := decide (8 ≤ n) && itemsCut items (n - 8)

theorem parseBinary_short (d : Datum) (data : Bytes) (h : data.length < 5 + d.payload.length) :
    parseBinary data d.kind d.payload.length =
      if d.kind = .text then panicked else fail .truncatedInput := by
  cases d with
  | text s =>
    have hkind : (Datum.text s).kind = .text := rfl
    rw [hkind, if_pos rfl, parseBinary_panics_iff]
    exact ⟨rfl, h⟩
  | int4 n =>
    have hl : (Datum.int4 n).payload.length = 4 := BigEndian.toBytes_length 4 _
    rw [hl] at h ⊢
    simp only [parseBinary, Datum.kind, ne_eq, not_true_eq_false, if_false, h, if_true, reduceCtorEq]
  | int8 n =>
    have hl : (Datum.int8 n).payload.length = 8 := BigEndian.toBytes_length 8 _
    rw [hl] at h ⊢
    simp only [parseBinary, parseI64, Datum.kind, ne_eq, not_true_eq_false, if_false, h, if_true,
      reduceCtorEq]
    rfl
  | bool b =>
    have hl : (Datum.bool b).payload.length = 1 := rfl
    rw [hl] at h ⊢
    simp only [parseBinary, Datum.kind, ne_eq, not_true_eq_false, if_false, h, if_true, reduceCtorEq]
  | timestamp t =>
    have hl : (Datum.timestamp t).payload.length = 8 := BigEndian.toBytes_length 8 _
    rw [hl] at h ⊢
    simp only [parseBinary, parseI64, Datum.kind, ne_eq, not_true_eq_false, if_false, h, if_true,
      reduceCtorEq]
    rfl

section Value
variable {F : Type} [FieldAccess F] (field : F) (isUpdate : Bool)

theorem parseValue_nil : parseValue ([] : Bytes) field isUpdate = fail .truncatedInput := rfl

theorem parseValue_cut_length (tag : UInt8) (tail : Bytes) (htag : tag = tagText ∨ tag = tagBinary)
    (h : tail.length < 4) : parseValue (tag :: tail) field isUpdate = fail .truncatedInput := by
  have hi : (index (tag :: tail) 0 : Decoded UInt8) = .ok tag := rfl
  have hmin : tail.length + 1 < 5 := by omega
  have htags : tagText ≠ tagNull ∧ tagText ≠ tagToasted ∧
      tagBinary ≠ tagNull ∧ tagBinary ≠ tagToasted := by decide
  rcases htag with rfl | rfl
  · simp [parseValue, hi, hmin, htags]
  · simp [parseValue, hi, hmin, htags]

theorem parseValue_cut_text (s : String) (hfits : (utf8Bytes s).length < 2^32) (body : Bytes)
    (h : body.length < (utf8Bytes s).length) :
    parseValue (tagText :: (BigEndian.toBytes 4 (utf8Bytes s).length ++ body)) field isUpdate =
      fail .truncatedInput := by
  have hl := BigEndian.toBytes_length 4 (utf8Bytes s).length
  obtain ⟨x, hx, hn⟩ := readU32_after_tag tagText _ body hl
  rw [BigEndian.ofBytes_toBytes 4 _ (by simpa using hfits)] at hn
  have hi : (index (tagText :: (BigEndian.toBytes 4 (utf8Bytes s).length ++ body)) 0 :
      Decoded UInt8) = .ok tagText := rfl
  have hlen : (tagText :: (BigEndian.toBytes 4 (utf8Bytes s).length ++ body)).length =
      5 + body.length := by
    rw [List.length_cons, List.length_append, hl]
    omega
  have hmin : ¬ 5 + body.length < 5 := by omega
  have hmax : 5 + body.length < 5 + (utf8Bytes s).length := by omega
  have htags : tagText ≠ tagNull ∧ tagText ≠ tagToasted := by decide
  simp only [parseValue, List.isEmpty_cons, hi, hlen, hx, hn, hmin, hmax, htags, ok_bind,
    Bool.false_eq_true, if_false, if_true]

theorem parseValue_cut_binary (d : Datum) (hfits : d.payload.length < 2^32)
    (hkind : d.kind = FieldAccess.getKind field) (body : Bytes)
    (h : body.length < d.payload.length) :
    parseValue (tagBinary :: (BigEndian.toBytes 4 d.payload.length ++ body)) field isUpdate =
      if d.kind = .text then panicked else fail .truncatedInput := by
  have hl := BigEndian.toBytes_length 4 d.payload.length
  obtain ⟨x, hx, hn⟩ := readU32_after_tag tagBinary _ body hl
  rw [BigEndian.ofBytes_toBytes 4 _ (by simpa using hfits)] at hn
  have hi : (index (tagBinary :: (BigEndian.toBytes 4 d.payload.length ++ body)) 0 :
      Decoded UInt8) = .ok tagBinary := rfl
  have hlen : (tagBinary :: (BigEndian.toBytes 4 d.payload.length ++ body)).length =
      5 + body.length := by
    rw [List.length_cons, List.length_append, hl]
    omega
  have hmin : ¬ 5 + body.length < 5 := by omega
  have htags : tagBinary ≠ tagNull ∧ tagBinary ≠ tagToasted ∧ tagBinary ≠ tagText := by decide
  have hshort := parseBinary_short d
    (tagBinary :: (BigEndian.toBytes 4 d.payload.length ++ body)) (by rw [hlen]; omega)
  simp only [parseValue, List.isEmpty_cons, hi, hlen, hx, hn, hmin, htags, ok_bind,
    Bool.false_eq_true, if_false, if_true, ← hkind, hshort]
  split_ifs <;> rfl

theorem take_payload (tag : UInt8) (len payload : Bytes) (hlen : len.length = 4) (n : ℕ)
    (hn : 5 ≤ n) : (tag :: (len ++ payload)).take n = tag :: (len ++ payload.take (n - 5)) := by
  obtain ⟨m, rfl⟩ : ∃ m, n = (len.length + m) + 1 := ⟨n - 5, by omega⟩
  rw [List.take_succ_cons, List.take_length_add_append, hlen]
  congr 3
  omega

theorem parseValue_cut_before (tag : UInt8) (len payload : Bytes)
    (htag : tag = tagText ∨ tag = tagBinary) (hlen : len.length = 4) (n : ℕ) (hn : n < 5) :
    parseValue ((tag :: (len ++ payload)).take n) field isUpdate = fail .truncatedInput := by
  cases n with
  | zero => rfl
  | succ m =>
    rw [List.take_succ_cons, List.take_append_of_le_length (by omega)]
    apply parseValue_cut_length field isUpdate tag _ htag
    rw [List.length_take]
    omega

theorem parseValue_cut_tag (tag : UInt8) (n : ℕ) (hn : n < [tag].length) :
    parseValue ([tag].take n) field isUpdate = fail .truncatedInput := by
  rw [List.length_singleton] at hn
  rw [Nat.lt_one_iff.mp hn, List.take_zero, parseValue_nil]

theorem parseValue_cut (item : Item) (hfits : item.Fits (FieldAccess.getKind field)) (n : ℕ)
    (hn : n < item.bytes.length) :
    parseValue (item.bytes.take n) field isUpdate =
      if itemCut item n then panicked else fail .truncatedInput := by
  cases item with
  | null => exact parseValue_cut_tag field isUpdate tagNull n hn
  | toasted => exact parseValue_cut_tag field isUpdate tagToasted n hn
  | text s =>
    have hlen := BigEndian.toBytes_length 4 (utf8Bytes s).length
    have hcut : itemCut (.text s) n = false := rfl
    rw [Item.bytes, List.length_cons, List.length_append, hlen] at hn
    rw [Item.bytes, hcut, if_neg Bool.false_ne_true]
    by_cases h5 : n < 5
    · exact parseValue_cut_before field isUpdate tagText _ _ (Or.inl rfl) hlen n h5
    · rw [take_payload tagText _ _ hlen n (by omega)]
      apply parseValue_cut_text field isUpdate s hfits
      rw [List.length_take]
      omega
  | binary d =>
    have hlen := BigEndian.toBytes_length 4 d.payload.length
    have hcut : itemCut (.binary d) n = (decide (d.kind = .text) && decide (5 ≤ n)) := by
      cases d <;> simp [itemCut, Datum.kind]
    rw [Item.bytes, List.length_cons, List.length_append, hlen] at hn
    rw [Item.bytes, hcut]
    by_cases h5 : n < 5
    · have hnot : ¬ 5 ≤ n := by omega
      rw [parseValue_cut_before field isUpdate tagBinary _ _ (Or.inr rfl) hlen n h5]
      simp [hnot]
    · have hle : 5 ≤ n := by omega
      rw [take_payload tagBinary _ _ hlen n hle,
        parseValue_cut_binary field isUpdate d hfits.1 hfits.2 _ (by rw [List.length_take]; omega)]
      simp [hle]

end Value

theorem numCols_cut_iff (isUpdate : Bool) (fields : List Field) (items : List Item)
    (hitems : List.Forall₂ (Written isUpdate) fields items) (n : ℕ)
    (hn : n < (items.flatMap Item.bytes).length) (pre : Bytes) (cols : List PgValue) :
    numCols (pre ++ (items.flatMap Item.bytes).take n) isUpdate fields pre.length cols =
        fail .truncatedInput ↔
      itemsCut items n = false := by
  induction hitems generalizing n pre cols with
  | nil => simp at hn
  | @cons field item fields items hfirst _ ih =>
    have hstart := sliceFrom_append (ε := DecoderError) pre
      (((item::items).flatMap Item.bytes).take n)
    rw [List.flatMap_cons] at hn
    rw [numCols, hstart, ok_bind, itemsCut, List.flatMap_cons]
    by_cases hcut : n < item.bytes.length
    · rw [List.take_append_of_le_length (by omega), parseValue_cut field isUpdate item hfirst.1 n hcut,
        if_pos hcut]
      cases itemCut item n with
      | true => exact iff_of_false (by simp [panicked, fail]) (by simp)
      | false => exact iff_of_true rfl rfl
    · obtain ⟨m, rfl⟩ : ∃ m, n = item.bytes.length + m := ⟨n - item.bytes.length, by omega⟩
      rw [List.length_append] at hn
      have hvalue := parseValue_item field isUpdate item ((items.flatMap Item.bytes).take m)
        hfirst.1 hfirst.2
      have hnext := ih m (by omega) (pre ++ item.bytes) (cols ++ [item.value])
      rw [List.length_append] at hnext
      rw [List.take_length_add_append, hvalue, ok_bind, if_neg hcut, Nat.add_sub_cancel_left,
        ← List.append_assoc]
      exact hnext

theorem parse_cut_iff (fields : List Field) (isUpdate : Bool) (items : List Item)
    (hcount : items.length ≤ 65535) (hitems : List.Forall₂ (Written isUpdate) fields items) (n : ℕ)
    (hn : n < (tupleBytes items).length) :
    TupleDecoder.parse ((tupleBytes items).take n) fields isUpdate = fail .truncatedInput ↔
      (decide (2 ≤ n) && itemsCut items (n - 2)) = false := by
  have hlen : items.length = fields.length := hitems.length_eq.symm
  rw [tupleBytes_length] at hn
  by_cases hmin : n < 2
  · have hshort : ((tupleBytes items).take n).length < 2 := by
      rw [List.length_take]
      omega
    have hnot : ¬ 2 ≤ n := by omega
    rw [TupleDecoder.parse, if_pos hshort]
    simp [hnot]
  · obtain ⟨m, rfl⟩ : ∃ m, n = (BigEndian.toBytes 2 items.length).length + m :=
      ⟨n - 2, by rw [BigEndian.toBytes_length]; omega⟩
    have hwhole : BigEndian.ofBytes (BigEndian.toBytes 2 items.length) = fields.length := by
      rw [BigEndian.ofBytes_toBytes 2 _ (by simpa using (by omega : items.length < 65536)), hlen]
    have hnumCols := numCols_cut_iff isUpdate fields items hitems m
      (by rw [BigEndian.toBytes_length] at hn; omega) (BigEndian.toBytes 2 items.length) []
    rw [tupleBytes, List.take_length_add_append,
      parse_eq_numCols _ _ fields isUpdate (BigEndian.toBytes_length 2 _) (by omega), hwhole,
      if_neg (by omega), List.take_length]
    rw [BigEndian.toBytes_length] at hnumCols ⊢
    rw [hnumCols]
    simp

theorem bind_pure_fails {α β : Type} (x : Decoded α) (f : α → β) (e : DecoderError) :
    (x >>= fun a => .ok (f a)) = fail e ↔ x = fail e := by
  cases x with
  | ok a => simp [fail]
  | error y => simp [fail]

theorem rowCut_tuple (items : List Item) (j : ℕ) :
    rowCut items (5 + (j+1)) = (decide (2 ≤ j) && itemsCut items (j - 2)) := by
  have hle : 8 ≤ 5 + (j+1) ↔ 2 ≤ j := by omega
  have hsub : 5 + (j+1) - 8 = j - 2 := by omega
  rw [rowCut, decide_eq_decide.mpr hle, hsub]

section Tuples
variable (rd : RelationData) (items : List Item) (hcount : items.length ≤ 65535)
  (hitems : List.Forall₂ (Written false) rd.inner.fields items)
include hcount hitems

theorem newTuple_cut_iff (m : ℕ) (hm : m < (tagN :: tupleBytes items).length) :
    getNewTupleData ((tagN :: tupleBytes items).take m) rd.inner.fields false =
        fail .truncatedInput ↔
      rowCut items (5 + m) = false := by
  rw [List.length_cons] at hm
  cases m with
  | zero => exact iff_of_true rfl rfl
  | succ j =>
    have hi : (index (tagN :: (tupleBytes items).take j) 0 : Decoded UInt8) = .ok tagN := rfl
    have hs : (sliceFrom (tagN :: (tupleBytes items).take j) 1 : Decoded Bytes) =
        .ok ((tupleBytes items).take j) := sliceFrom_append [tagN] _
    rw [rowCut_tuple, ← parse_cut_iff rd.inner.fields false items hcount hitems j (by omega),
      List.take_succ_cons]
    simp only [getNewTupleData, List.isEmpty_cons, Bool.false_eq_true, if_false, hi, ok_bind, ne_eq,
      not_true_eq_false, hs]
    exact bind_pure_fails _ Prod.fst _

theorem oldTuple_cut_iff (hidentity : rd.inner.replicaId = .row) (m : ℕ)
    (hm : m < (tagO :: tupleBytes items).length) :
    getOldTupleData ((tagO :: tupleBytes items).take m) rd = fail .truncatedInput ↔
      rowCut items (5 + m) = false := by
  rw [List.length_cons] at hm
  cases m with
  | zero => exact iff_of_true rfl rfl
  | succ j =>
    have hi : (index (tagO :: (tupleBytes items).take j) 0 : Decoded UInt8) = .ok tagO := rfl
    have hs : (sliceFrom (tagO :: (tupleBytes items).take j) 1 : Decoded Bytes) =
        .ok ((tupleBytes items).take j) := sliceFrom_append [tagO] _
    have htags : tagO ≠ tagK := by decide
    rw [rowCut_tuple, ← parse_cut_iff rd.inner.fields false items hcount hitems j (by omega),
      List.take_succ_cons]
    simp only [getOldTupleData, List.isEmpty_cons, Bool.false_eq_true, if_false, hi, ok_bind, htags,
      if_true, hidentity, ne_eq, not_true_eq_false, hs]
    exact bind_pure_fails _ (fun r : List PgValue × ℕ => (r.1, r.2 + 1)) _

end Tuples

theorem rowMessage_take (tag : UInt8) (oid : Oid) (tuples : Bytes) (m : ℕ) :
    (rowMessage tag oid tuples).take (5 + m) = rowMessage tag oid (tuples.take m) := by
  have hpos : 5 + m = ((BigEndian.toBytes 4 oid.toNat).length + m) + 1 := by
    rw [BigEndian.toBytes_length]
    omega
  rw [rowMessage, hpos, List.take_succ_cons, List.take_length_add_append, rowMessage]

/-- For every relation and every message written for it, a strict part from
its start is reported as truncated exactly where the cut is not in the payload
of a binary text. -/
theorem row_cut_iff (map : RelationMap) (oid : Oid) (rd : RelationData) (hmap : map oid = some rd)
    (items : List Item) (hcount : items.length ≤ 65535)
    (hitems : List.Forall₂ (Written false) rd.inner.fields items) (n : ℕ) :
    (n < (rowMessage tagI oid (tagN :: tupleBytes items)).length →
      (Insert.parse ((rowMessage tagI oid (tagN :: tupleBytes items)).take n) map =
          fail .truncatedInput ↔ rowCut items n = false)) ∧
    (rd.inner.replicaId = .row → n < (rowMessage tagD oid (tagO :: tupleBytes items)).length →
      (Delete.parse ((rowMessage tagD oid (tagO :: tupleBytes items)).take n) map =
          fail .truncatedInput ↔ rowCut items n = false)) := by
  have hlookup := lookup_ok map oid rd hmap
  have hshort : ∀ (tag : UInt8) (tuples : Bytes), n < 5 →
      ((rowMessage tag oid tuples).take n).length < 5 := by
    intro tag tuples h
    rw [List.length_take]
    omega
  have hheader : n < 5 → rowCut items n = false := by
    intro h
    have hnot : ¬ 8 ≤ n := by omega
    simp [rowCut, hnot]
  constructor
  · intro hn
    by_cases h5 : n < 5
    · rw [Insert.parse, if_pos (hshort _ _ h5), hheader h5]
      exact iff_of_true rfl rfl
    · obtain ⟨m, rfl⟩ : ∃ m, n = 5 + m := ⟨n - 5, by omega⟩
      rw [rowMessage_length] at hn
      rw [rowMessage_take, Insert.parse, if_neg (rowMessage_min _ _ _), rowMessage_oid, ok_bind,
        hlookup, ok_bind, rowMessage_tuples, ok_bind,
        ← newTuple_cut_iff rd items hcount hitems m (by omega)]
      exact bind_pure_fails _ _ _
  · intro hidentity hn
    by_cases h5 : n < 5
    · rw [Delete.parse, if_pos (hshort _ _ h5), hheader h5]
      exact iff_of_true rfl rfl
    · obtain ⟨m, rfl⟩ : ∃ m, n = 5 + m := ⟨n - 5, by omega⟩
      rw [rowMessage_length] at hn
      rw [rowMessage_take, Delete.parse, if_neg (rowMessage_min _ _ _), rowMessage_oid, ok_bind,
        hlookup, ok_bind, rowMessage_tuples, ok_bind,
        ← oldTuple_cut_iff rd items hcount hitems hidentity m (by omega)]
      exact bind_pure_fails _ _ _

def notes : RelationData :=
  ⟨⟨1, "notes", "p", [⟨false, "body", .text⟩], .row⟩, [], []⟩

theorem cut_binary_text_panics :
    rowMessage tagI 1 (tagN :: tupleBytes [.binary (.text "ab")]) =
      [0x49, 0,0,0,1, 0x4E, 0,1, 0x62, 0,0,0,2, 0x61,0x62] ∧
      Insert.parse [0x49, 0,0,0,1, 0x4E, 0,1, 0x62, 0,0,0,2, 0x61] (fun _ => some notes) =
        panicked ∧
      Insert.parse [0x49, 0,0,0,1, 0x4E, 0,1, 0x74, 0,0,0,2, 0x61] (fun _ => some notes) =
        fail .truncatedInput := by
  decide

theorem cut_length_reported :
    Insert.parse ((rowMessage tagI 1 (tagN :: tupleBytes [.binary (.text "ab")])).take 12)
        (fun _ => some notes) = fail .truncatedInput :=
  ((row_cut_iff (fun _ => some notes) 1 notes rfl [.binary (.text "ab")] (by decide)
    (.cons ⟨⟨by decide, rfl⟩, fun h => by cases h⟩ .nil) 12).1 (by decide)).mpr (by decide)

end CDC.CutRows
