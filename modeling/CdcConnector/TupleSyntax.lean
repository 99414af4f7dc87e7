import CdcConnector.TupleDecoder

/-!
# The row-tuple grammar

A tuple is a count and that many tagged items. The grammar is stated on
bytes, apart from the decoder: a payload fits a kind, an item stands in a
column, a row is a sequence of items. The decoder accepts exactly this
grammar at the front of its input, by the unrolled loops and by the general
one.
-/

set_option autoImplicit false

namespace CDC.TupleSyntax
open CDC.Fallible CDC.Event CDC.Decoder CDC.RelationDecoder CDC.TupleDecoder

def twosComplement (bytes : Bytes) : ℤ :=
  if 2 * BigEndian.ofBytes bytes < 256^bytes.length then BigEndian.ofBytes bytes
  else (BigEndian.ofBytes bytes : ℤ) - 256^bytes.length

/-- The payload of a binary item in a column of this kind, and its value. -/
def Payload (kind : FieldKind) (payload : Bytes) : PgValue → Prop
  | .int4 n => kind = .int4 ∧ payload.length = 4 ∧ n.toInt = twosComplement payload
  | .int8 n => kind = .int8 ∧ payload.length = 8 ∧ n.toInt = twosComplement payload
  | .timestamp t => kind = .timestamp ∧ payload.length = 8 ∧ t.toInt = twosComplement payload
  | .bool b => kind = .bool ∧ ∃ byte, payload = [byte] ∧ (b = true ↔ byte ≠ 0)
  | .text s => kind = .text ∧ payload = utf8Bytes s
  | .null => False
  | .toasted => False

/-- A tagged item in a column of this kind. -/
inductive ItemOf (isUpdate : Bool) (kind : FieldKind) : Bytes → PgValue → Prop where
  | null : ItemOf isUpdate kind [tagNull] .null
  | toasted (h : isUpdate = true) : ItemOf isUpdate kind [tagToasted] .toasted
  | text (len : Bytes) (s : String) (hlen : len.length = 4)
      (hs : BigEndian.ofBytes len = (utf8Bytes s).length) :
      ItemOf isUpdate kind (tagText :: (len ++ utf8Bytes s)) (.text s)
  | binary (len payload : Bytes) (v : PgValue) (hlen : len.length = 4)
      (hp : BigEndian.ofBytes len = payload.length) (hv : Payload kind payload v) :
      ItemOf isUpdate kind (tagBinary :: (len ++ payload)) v

inductive ItemsOf {F : Type} [FieldAccess F] (isUpdate : Bool) :
    List F → Bytes → List PgValue → Prop where
  | nil : ItemsOf isUpdate [] [] []
  | cons (field : F) (fields : List F) (item bytes : Bytes) (v : PgValue)
      (vals : List PgValue) (hitem : ItemOf isUpdate (FieldAccess.getKind field) item v)
      (hitems : ItemsOf isUpdate fields bytes vals) :
      ItemsOf isUpdate (field::fields) (item ++ bytes) (v::vals)

/-- A count of at most all columns, then one item for each counted column. -/
def TupleOf (isUpdate : Bool) (fields : List Field) (bytes : Bytes) (vals : List PgValue) : Prop :=
  ∃ count body, bytes = count ++ body ∧ count.length = 2 ∧
    BigEndian.ofBytes count ≤ fields.length ∧
    ItemsOf isUpdate (fields.take (BigEndian.ofBytes count)) body vals

theorem fromUtf8_ok_iff (bytes : Bytes) (s : String) :
    fromUtf8 bytes = .ok s ↔ bytes = utf8Bytes s := by
  constructor
  · intro h
    unfold fromUtf8 at h
    by_cases hv : (⟨bytes.toArray⟩ : ByteArray).IsValidUTF8
    · simp only [String.fromUTF8?, hv, dite_true, Except.ok.injEq] at h
      subst h
      rfl
    · simp [String.fromUTF8?, hv, fail] at h
  · rintro rfl
    exact fromUtf8_utf8Bytes s

theorem split_front (w : ℕ) {data : Bytes} (h : w ≤ data.length) :
    ∃ front rest, data = front ++ rest ∧ front.length = w :=
  ⟨data.take w, data.drop w, (List.take_append_drop w data).symm, List.length_take_of_le h⟩

theorem readU32_after_tag (tag : UInt8) (len body : Bytes) (hlen : len.length = 4) :
    ∃ x, readU32 (tag :: (len ++ body)) 1 = .ok x ∧ x.toNat = BigEndian.ofBytes len := by
  have hlt : BigEndian.ofBytes len < 2^32 := by
    have := BigEndian.ofBytes_lt len
    rw [hlen] at this
    omega
  have hs : (slice (tag :: (len ++ body)) 1 (1 + 4) : Decoded Bytes) = .ok len := by
    have := slice_middle (ε := DecoderError) [tag] len body 5 (by simp [hlen])
    simpa using this
  refine ⟨UInt32.ofNat (BigEndian.ofBytes len), ?_, UInt32.toNat_ofNat_of_lt' hlt⟩
  simp only [readU32, hs, ok_bind, pure_ok]

theorem toInt32_bytes (bytes : Bytes) (hlen : bytes.length = 4) :
    (UInt32.ofNat (BigEndian.ofBytes bytes)).toInt32.toInt = twosComplement bytes := by
  have hlt := BigEndian.ofBytes_lt bytes
  rw [hlen] at hlt
  have hn : (UInt32.ofNat (BigEndian.ofBytes bytes)).toNat = BigEndian.ofBytes bytes :=
    UInt32.toNat_ofNat_of_lt' hlt
  change (UInt32.ofNat (BigEndian.ofBytes bytes)).toBitVec.toInt = _
  rw [BitVec.toInt_eq_toNat_cond, UInt32.toNat_toBitVec, hn, twosComplement, hlen]
  norm_num

theorem toInt64_bytes (bytes : Bytes) (hlen : bytes.length = 8) :
    (UInt64.ofNat (BigEndian.ofBytes bytes)).toInt64.toInt = twosComplement bytes := by
  have hlt := BigEndian.ofBytes_lt bytes
  rw [hlen] at hlt
  have hn : (UInt64.ofNat (BigEndian.ofBytes bytes)).toNat = BigEndian.ofBytes bytes :=
    UInt64.toNat_ofNat_of_lt' hlt
  change (UInt64.ofNat (BigEndian.ofBytes bytes)).toBitVec.toInt = _
  rw [BitVec.toInt_eq_toNat_cond, UInt64.toNat_toBitVec, hn, twosComplement, hlen]
  norm_num

theorem slice_behind (head body : Bytes) (hhead : head.length = 5) (w : ℕ) (h : w ≤ body.length) :
    (slice (head ++ body) 5 (5 + w) : Decoded Bytes) = .ok (body.take w) := by
  have hsplit : head ++ body = head ++ (body.take w ++ body.drop w) := by
    rw [List.take_append_drop]
  rw [hsplit, ← hhead]
  apply slice_middle
  rw [List.length_take, Nat.min_eq_left h]

theorem parseI64_ok_iff (head body : Bytes) (hhead : head.length = 5) (l : ℕ) (n : Int64) :
    parseI64 l (head ++ body) = .ok n ↔
      l ≤ body.length ∧ (body.take l).length = 8 ∧ n.toInt = twosComplement (body.take l) := by
  unfold parseI64
  by_cases hl : l = 8
  · subst hl
    by_cases hb : 8 ≤ body.length
    · have hmin : ¬ (head ++ body).length < 13 := by
        rw [List.length_append, hhead]
        omega
      have htake : (body.take 8).length = 8 := List.length_take_of_le hb
      have hr : readU64 (head ++ body) 5 =
          .ok (UInt64.ofNat (BigEndian.ofBytes (body.take 8))) := by
        simp only [readU64, slice_behind head body hhead 8 hb, ok_bind, pure_ok]
      simp only [ne_eq, not_true_eq_false, if_false, hmin, hr, ok_bind, pure_ok, Except.ok.injEq,
        hb, htake, true_and]
      rw [← toInt64_bytes (body.take 8) htake, Int64.toInt_inj]
      exact eq_comm
    · have hmin : (head ++ body).length < 13 := by
        rw [List.length_append, hhead]
        omega
      simp only [ne_eq, not_true_eq_false, if_false, hmin, if_true, hb, false_and, fail,
        reduceCtorEq]
  · have hlen : ∀ h : l ≤ body.length, (body.take l).length ≠ 8 := by
      intro h
      rw [List.length_take_of_le h]
      exact hl
    simp only [ne_eq, hl, not_false_eq_true, if_true, fail, reduceCtorEq, false_iff]
    exact fun h => hlen h.1 h.2.1

theorem parseBinary_int4 (head body : Bytes) (hhead : head.length = 5) (l : ℕ) (v : PgValue) :
    parseBinary (head ++ body) .int4 l = .ok v ↔
      l ≤ body.length ∧ (body.take l).length = 4 ∧
        ∃ n : Int32, n.toInt = twosComplement (body.take l) ∧ v = .int4 n := by
  unfold parseBinary
  by_cases hl : l = 4
  · subst hl
    by_cases hb : 4 ≤ body.length
    · have hmin : ¬ (head ++ body).length < 9 := by
        rw [List.length_append, hhead]
        omega
      have htake : (body.take 4).length = 4 := List.length_take_of_le hb
      have hr : readU32 (head ++ body) 5 =
          .ok (UInt32.ofNat (BigEndian.ofBytes (body.take 4))) := by
        simp only [readU32, slice_behind head body hhead 4 hb, ok_bind, pure_ok]
      simp only [ne_eq, not_true_eq_false, if_false, hmin, hr, ok_bind, pure_ok, Except.ok.injEq,
        hb, htake, true_and]
      rw [← toInt32_bytes (body.take 4) htake]
      constructor
      · rintro rfl
        exact ⟨_, rfl, rfl⟩
      · rintro ⟨n, hn, rfl⟩
        rw [Int32.toInt_inj.mp hn]
    · have hmin : (head ++ body).length < 9 := by
        rw [List.length_append, hhead]
        omega
      simp only [ne_eq, not_true_eq_false, if_false, hmin, if_true, hb, false_and, fail,
        reduceCtorEq]
  · simp only [ne_eq, hl, not_false_eq_true, if_true, fail, reduceCtorEq, false_iff]
    rintro ⟨hb, h4, _⟩
    rw [List.length_take_of_le hb] at h4
    exact hl h4

theorem parseBinary_bool (head body : Bytes) (hhead : head.length = 5) (l : ℕ) (v : PgValue) :
    parseBinary (head ++ body) .bool l = .ok v ↔
      ∃ byte, l ≤ body.length ∧ body.take l = [byte] ∧ v = .bool (byte ≠ 0) := by
  unfold parseBinary
  by_cases hl : l = 1
  · subst hl
    cases body with
    | nil => simp [hhead, fail]
    | cons byte body =>
      have hmin : ¬ (head ++ byte::body).length < 6 := by
        rw [List.length_append, List.length_cons, hhead]
        omega
      have hi : (index (head ++ byte::body) 5 : Decoded UInt8) = .ok byte := by
        rw [index_ok _ _ (by omega)]
        simp [List.getElem_append_right, hhead]
      simp only [ne_eq, not_true_eq_false, if_false, hmin, hi, ok_bind, pure_ok, Except.ok.injEq]
      simp [eq_comm]
  · simp only [ne_eq, hl, not_false_eq_true, if_true, fail, reduceCtorEq, false_iff]
    rintro ⟨byte, hb, h1, _⟩
    have hlen := congrArg List.length h1
    rw [List.length_take_of_le hb] at hlen
    exact hl hlen

theorem parseBinary_text (head body : Bytes) (hhead : head.length = 5) (l : ℕ) (v : PgValue) :
    parseBinary (head ++ body) .text l = .ok v ↔
      ∃ s, l ≤ body.length ∧ body.take l = utf8Bytes s ∧ v = .text s := by
  unfold parseBinary
  by_cases hl : l ≤ body.length
  · simp only [slice_behind head body hhead l hl, ok_bind, bind_ok_iff, fromUtf8_ok_iff, pure_ok,
      Except.ok.injEq, hl, true_and]
    simp only [eq_comm]
  · have hs : (slice (head ++ body) 5 (5 + l) : Decoded Bytes) = panicked := by
      apply if_neg
      rw [List.length_append, hhead]
      omega
    simp [hs, panicked, hl]

theorem parseBinary_ok_iff (head body : Bytes) (hhead : head.length = 5) (kind : FieldKind) (l : ℕ)
    (v : PgValue) :
    parseBinary (head ++ body) kind l = .ok v ↔
      l ≤ body.length ∧ Payload kind (body.take l) v := by
  cases kind with
  | int4 =>
    rw [parseBinary_int4 head body hhead]
    cases v <;> simp [Payload]
  | text =>
    rw [parseBinary_text head body hhead]
    cases v <;> simp [Payload]
  | int8 =>
    simp only [parseBinary, bind_ok_iff, pure_ok, Except.ok.injEq, parseI64_ok_iff head body hhead]
    cases v <;> simp [Payload, and_assoc]
  | bool =>
    rw [parseBinary_bool head body hhead]
    have hb : ∀ (b : Bool) (byte : UInt8), b = decide (byte ≠ 0) ↔ (b = true ↔ byte ≠ 0) := by
      intro b byte
      cases b <;> simp
    cases v with
    | bool b =>
      simp only [Payload, PgValue.bool.injEq, hb, true_and, exists_and_left]
    | _ => simp [Payload]
  | timestamp =>
    simp only [parseBinary, bind_ok_iff, pure_ok, Except.ok.injEq, parseI64_ok_iff head body hhead]
    cases v <;> simp [Payload, and_assoc]

section Reading
variable {F : Type} [FieldAccess F]

theorem parseValue_text (field : F) (isUpdate : Bool) (len body : Bytes) (hlen : len.length = 4)
    (v : PgValue) (l : ℕ) :
    parseValue (tagText :: (len ++ body)) field isUpdate = .ok (v, l) ↔
      ∃ s, BigEndian.ofBytes len ≤ body.length ∧ body.take (BigEndian.ofBytes len) = utf8Bytes s ∧
        v = .text s ∧ l = 5 + BigEndian.ofBytes len := by
  obtain ⟨x, hx, hn⟩ := readU32_after_tag tagText len body hlen
  have hi : (index (tagText :: (len ++ body)) 0 : Decoded UInt8) = .ok tagText := rfl
  have he : (tagText :: (len ++ body)).isEmpty = false := rfl
  have hmin : ¬ (tagText :: (len ++ body)).length < 5 := by
    simp [hlen]
  have hhead : (tagText :: len).length = 5 := by simp [hlen]
  have htags : tagText ≠ tagNull ∧ tagText ≠ tagToasted := by decide
  simp only [parseValue, he, hi, hx, hn, hmin, htags, ok_bind, Bool.false_eq_true, if_false, if_true]
  by_cases hb : BigEndian.ofBytes len ≤ body.length
  · have hmax : ¬ (tagText :: (len ++ body)).length < 5 + BigEndian.ofBytes len := by
      simp [hlen]
      omega
    have hs := slice_behind (tagText :: len) body hhead _ hb
    rw [List.cons_append] at hs
    simp only [hmax, if_false, hs, ok_bind, bind_ok_iff, fromUtf8_ok_iff, pure_ok, Except.ok.injEq,
      Prod.mk.injEq, hb, true_and]
    simp only [eq_comm]
  · have hmax : (tagText :: (len ++ body)).length < 5 + BigEndian.ofBytes len := by
      simp [hlen]
      omega
    simp only [hmax, if_true, hb, fail, reduceCtorEq, false_and, exists_const]

theorem parseValue_binary (field : F) (isUpdate : Bool) (len body : Bytes) (hlen : len.length = 4)
    (v : PgValue) (l : ℕ) :
    parseValue (tagBinary :: (len ++ body)) field isUpdate = .ok (v, l) ↔
      BigEndian.ofBytes len ≤ body.length ∧
        Payload (FieldAccess.getKind field) (body.take (BigEndian.ofBytes len)) v ∧
        l = 5 + BigEndian.ofBytes len := by
  obtain ⟨x, hx, hn⟩ := readU32_after_tag tagBinary len body hlen
  have hi : (index (tagBinary :: (len ++ body)) 0 : Decoded UInt8) = .ok tagBinary := rfl
  have he : (tagBinary :: (len ++ body)).isEmpty = false := rfl
  have hmin : ¬ (tagBinary :: (len ++ body)).length < 5 := by
    simp [hlen]
  have hhead : (tagBinary :: len).length = 5 := by simp [hlen]
  have htags : tagBinary ≠ tagNull ∧ tagBinary ≠ tagToasted ∧ tagBinary ≠ tagText := by decide
  have hp := parseBinary_ok_iff (tagBinary :: len) body hhead (FieldAccess.getKind field)
    (BigEndian.ofBytes len)
  simp only [List.cons_append] at hp
  simp only [parseValue, he, hi, hx, hn, hmin, htags, ok_bind, Bool.false_eq_true, if_false, if_true,
    bind_ok_iff, hp, pure_ok, Except.ok.injEq, Prod.mk.injEq]
  constructor
  · rintro ⟨w, ⟨hb, hw⟩, rfl, rfl⟩
    exact ⟨hb, hw, rfl⟩
  · rintro ⟨hb, hw, rfl⟩
    exact ⟨v, ⟨hb, hw⟩, rfl, rfl⟩

theorem parseValue_short (tag : UInt8) (tail : Bytes) (field : F) (isUpdate : Bool)
    (hnull : tag ≠ tagNull) (htoast : tag ≠ tagToasted) (h : tail.length < 4)
    (r : PgValue × ℕ) : parseValue (tag :: tail) field isUpdate ≠ .ok r := by
  have hi : (index (tag :: tail) 0 : Decoded UInt8) = .ok tag := rfl
  have he : (tag :: tail).isEmpty = false := rfl
  have hmin : (tag :: tail).length < 5 := by
    rw [List.length_cons]
    omega
  simp only [parseValue, he, hi, hnull, htoast, hmin, ok_bind, Bool.false_eq_true, if_false, if_true,
    fail]
  split_ifs <;> simp

theorem parseValue_sound (data : Bytes) (field : F) (isUpdate : Bool) (v : PgValue) (l : ℕ)
    (h : parseValue data field isUpdate = .ok (v, l)) :
    ∃ item rest, data = item ++ rest ∧ l = item.length ∧
      ItemOf isUpdate (FieldAccess.getKind field) item v := by
  cases data with
  | nil => cases h
  | cons tag tail =>
    by_cases hnull : tag = tagNull
    · subst hnull
      cases h
      exact ⟨[tagNull], tail, rfl, rfl, .null⟩
    by_cases htoast : tag = tagToasted
    · subst htoast
      cases isUpdate with
      | false => cases h
      | true =>
        cases h
        exact ⟨[tagToasted], tail, rfl, rfl, .toasted rfl⟩
    by_cases hshort : tail.length < 4
    · exact absurd h (parseValue_short tag tail field isUpdate hnull htoast hshort _)
    obtain ⟨len, body, rfl, hlen⟩ := split_front 4 (by omega : 4 ≤ tail.length)
    by_cases htext : tag = tagText
    · subst htext
      rw [parseValue_text field isUpdate len body hlen] at h
      obtain ⟨s, hb, hs, rfl, rfl⟩ := h
      have hn : BigEndian.ofBytes len = (utf8Bytes s).length := by
        rw [← hs, List.length_take_of_le hb]
      refine ⟨tagText :: (len ++ utf8Bytes s), body.drop (BigEndian.ofBytes len), ?_, ?_,
        .text len s hlen hn⟩
      · rw [← hs]
        simp
      · simp only [List.length_cons, List.length_append]
        omega
    by_cases hbinary : tag = tagBinary
    · subst hbinary
      rw [parseValue_binary field isUpdate len body hlen] at h
      obtain ⟨hb, hv, rfl⟩ := h
      have hn : BigEndian.ofBytes len = (body.take (BigEndian.ofBytes len)).length :=
        (List.length_take_of_le hb).symm
      refine ⟨tagBinary :: (len ++ body.take (BigEndian.ofBytes len)),
        body.drop (BigEndian.ofBytes len), ?_, ?_, .binary len _ v hlen hn hv⟩
      · simp
      · simp only [List.length_cons, List.length_append]
        omega
    · have he : parseValue (tag :: (len ++ body)) field isUpdate = fail (.wrongColTypeKey tag) := by
        have hi : (index (tag :: (len ++ body)) 0 : Decoded UInt8) = .ok tag := rfl
        simp [parseValue, hi, hnull, htoast, htext, hbinary]
      rw [he] at h
      cases h

theorem parseValue_complete (item rest : Bytes) (field : F) (isUpdate : Bool) (v : PgValue)
    (hitem : ItemOf isUpdate (FieldAccess.getKind field) item v) :
    parseValue (item ++ rest) field isUpdate = .ok (v, item.length) := by
  cases hitem with
  | null => rfl
  | toasted htoast =>
    subst htoast
    rfl
  | text len s hlen hs =>
    rw [List.cons_append, List.append_assoc, parseValue_text field isUpdate len _ hlen]
    refine ⟨s, ?_, ?_, rfl, ?_⟩
    · rw [List.length_append]
      omega
    · rw [hs, List.take_left]
    · rw [List.length_cons, List.length_append]
      omega
  | binary len payload v hlen hp hv =>
    rw [List.cons_append, List.append_assoc, parseValue_binary field isUpdate len _ hlen, hp,
      List.take_left]
    refine ⟨?_, hv, ?_⟩
    · rw [List.length_append]
      omega
    · rw [List.length_cons, List.length_append]
      omega

/-- One value is read exactly where the input starts with an item. -/
theorem parseValue_ok_iff (data : Bytes) (field : F) (isUpdate : Bool) (v : PgValue) (l : ℕ) :
    parseValue data field isUpdate = .ok (v, l) ↔
      ∃ item rest, data = item ++ rest ∧ l = item.length ∧
        ItemOf isUpdate (FieldAccess.getKind field) item v := by
  constructor
  · exact parseValue_sound data field isUpdate v l
  · rintro ⟨item, rest, rfl, rfl, hitem⟩
    exact parseValue_complete item rest field isUpdate v hitem

end Reading

theorem drop_cons_index {α : Type} {xs ys : List α} {x : α} {k : ℕ} (h : xs.drop k = x :: ys) :
    (index xs k : Decoded α) = .ok x ∧ xs.drop (k+1) = ys := by
  constructor
  · have hk : xs[k]? = some x := by rw [← List.head?_drop, h, List.head?_cons]
    simp [index, hk]
  · rw [← List.tail_drop, h, List.tail_cons]

theorem index_cons_drop {α : Type} {xs : List α} {x : α} {k : ℕ}
    (h : (index xs k : Decoded α) = .ok x) : xs.drop k = x :: xs.drop (k+1) := by
  have hk : k < xs.length := by
    by_contra hout
    rw [index_panics xs k (by omega)] at h
    cases h
  rw [index_ok xs k hk, Except.ok.injEq] at h
  rw [List.drop_eq_getElem_cons hk, h]

theorem drop_item {data item rest : Bytes} {pos : ℕ} (hpos : pos ≤ data.length)
    (h : data.drop pos = item ++ rest) :
    pos + item.length ≤ data.length ∧ data.drop (pos + item.length) = rest := by
  constructor
  · have hlen := congrArg List.length h
    rw [List.length_drop, List.length_append] at hlen
    omega
  · rw [← List.drop_drop, h, List.drop_left]

/-- The general loop accepts items at its offset, one for each of the next
`left` fields. -/
theorem anyCols_ok_iff {F : Type} [FieldAccess F] (data : Bytes) (fields : List F)
    (isUpdate : Bool) (left i lastPos : ℕ) (hpos : lastPos ≤ data.length)
    (cols vals : List PgValue) (n : ℕ) :
    anyCols data fields isUpdate left i lastPos cols = .ok (vals, n) ↔
      ∃ done todo body rest new, fields.drop i = done ++ todo ∧ done.length = left ∧
        data.drop lastPos = body ++ rest ∧ ItemsOf isUpdate done body new ∧ vals = cols ++ new ∧
        n = lastPos + body.length := by
  induction left generalizing i lastPos cols with
  | zero =>
    simp only [anyCols, pure_ok, Except.ok.injEq, Prod.mk.injEq]
    constructor
    · rintro ⟨rfl, rfl⟩
      exact ⟨[], fields.drop i, [], data.drop lastPos, [], rfl, rfl, rfl, .nil,
        (List.append_nil _).symm, rfl⟩
    · rintro ⟨done, todo, body, rest, new, _, hdone, _, hitems, rfl, rfl⟩
      rw [List.length_eq_zero_iff.mp hdone] at hitems
      cases hitems
      exact ⟨(List.append_nil _).symm, rfl⟩
  | succ left ih =>
    simp only [anyCols, sliceFrom_ok _ _ hpos, ok_bind, bind_ok_iff]
    constructor
    · rintro ⟨field, hfield, ⟨v, l⟩, hv, h⟩
      obtain ⟨item, rest, hdrop, rfl, hitem⟩ := (parseValue_ok_iff _ _ _ _ _).mp hv
      obtain ⟨hnext, htail⟩ := drop_item hpos hdrop
      obtain ⟨done, todo, body, rest', new, hsplit, rfl, hdrop', hitems, rfl, rfl⟩ :=
        (ih (i+1) _ hnext _).mp h
      rw [htail] at hdrop'
      refine ⟨field::done, todo, item ++ body, rest', v::new, ?_, rfl, ?_,
        .cons field done item body v new hitem hitems, ?_, ?_⟩
      · rw [List.cons_append, ← hsplit, index_cons_drop hfield]
      · rw [hdrop, hdrop', List.append_assoc]
      · rw [List.append_assoc, List.singleton_append]
      · rw [List.length_append, Nat.add_assoc]
    · rintro ⟨done, todo, bytes, rest, new, hsplit, hdone, hdrop, hitems, rfl, rfl⟩
      cases hitems with
      | nil => cases hdone
      | cons field done item body v vals hitem hitems =>
        rw [List.append_assoc] at hdrop
        obtain ⟨hnext, htail⟩ := drop_item hpos hdrop
        obtain ⟨hfield, hrest⟩ := drop_cons_index hsplit
        have hv := (parseValue_ok_iff (data.drop lastPos) field isUpdate v item.length).mpr
          ⟨item, body ++ rest, hdrop, rfl, hitem⟩
        refine ⟨field, hfield, (v, item.length), hv, (ih (i+1) _ hnext _).mpr ?_⟩
        refine ⟨done, todo, body, rest, vals, hrest, ?_, htail, hitems, ?_, ?_⟩
        · simpa using hdone
        · rw [List.append_assoc, List.singleton_append]
        · rw [List.length_append, Nat.add_assoc]

theorem anyCols_eq_numCols (data : Bytes) (fields : List Field) (isUpdate : Bool) (left i lastPos : ℕ)
    (hleft : i + left ≤ fields.length) (cols : List PgValue) :
    anyCols data fields isUpdate left i lastPos cols =
      numCols data isUpdate ((fields.drop i).take left) lastPos cols := by
  induction left generalizing i lastPos cols with
  | zero => rfl
  | succ left ih =>
    have hi : i < fields.length := by omega
    rw [List.drop_eq_getElem_cons hi, List.take_succ_cons, numCols, anyCols]
    simp only [index_ok fields i hi, ok_bind]
    congr
    funext rest
    congr
    funext r
    exact ih (i+1) _ (by omega) _

theorem numCols_ok_iff (data : Bytes) (isUpdate : Bool) (fields : List Field) (lastPos : ℕ)
    (hpos : lastPos ≤ data.length) (cols vals : List PgValue) (n : ℕ) :
    numCols data isUpdate fields lastPos cols = .ok (vals, n) ↔
      ∃ body rest new, data.drop lastPos = body ++ rest ∧ ItemsOf isUpdate fields body new ∧
        vals = cols ++ new ∧ n = lastPos + body.length := by
  have hloops := anyCols_eq_numCols data fields isUpdate fields.length 0 lastPos (by omega) cols
  rw [List.drop_zero, List.take_length] at hloops
  rw [← hloops, anyCols_ok_iff data fields isUpdate _ 0 lastPos hpos, List.drop_zero]
  constructor
  · rintro ⟨done, todo, body, rest, new, hsplit, hdone, h⟩
    have hwhole : fields = done := by
      have hlen := congrArg List.length hsplit
      rw [List.length_append] at hlen
      rw [hsplit, List.length_eq_zero_iff.mp (show todo.length = 0 by omega), List.append_nil]
    exact ⟨body, rest, new, hwhole ▸ h⟩
  · rintro ⟨body, rest, new, h⟩
    exact ⟨fields, [], body, rest, new, (List.append_nil _).symm, rfl, h⟩

theorem readU16_front (count body : Bytes) (hcount : count.length = 2) :
    readU16 (count ++ body) 0 = .ok (BigEndian.ofBytes count) := by
  have hs : (slice (count ++ body) 0 (0 + 2) : Decoded Bytes) = .ok count := by
    simpa using slice_middle (ε := DecoderError) [] count body 2 (by simp [hcount])
  simp only [readU16, hs, ok_bind, pure_ok]

theorem parse_eq_numCols (count body : Bytes) (fields : List Field) (isUpdate : Bool)
    (hcount : count.length = 2) (hfields : fields.length ≤ 65535) :
    TupleDecoder.parse (count ++ body) fields isUpdate =
      if fields.length < BigEndian.ofBytes count then fail .corruptedInput
      else numCols (count ++ body) isUpdate (fields.take (BigEndian.ofBytes count)) 2 [] := by
  have hmin : ¬ (count ++ body).length < 2 := by
    rw [List.length_append, hcount]
    omega
  have hmod : fields.length % 2^16 = fields.length := Nat.mod_eq_of_lt (by omega)
  simp only [TupleDecoder.parse, hmin, if_false, readU16_front count body hcount, ok_bind, hmod]
  by_cases hfew : fields.length < BigEndian.ofBytes count
  · simp only [gt_iff_lt, hfew, if_true]
  · simp only [gt_iff_lt, hfew, if_false]
    split_ifs with hfast
    · rfl
    · rw [anyCols_eq_numCols _ _ _ _ _ _ (by omega), List.drop_zero]

theorem parse_ok_iff (fields : List Field) (hfields : fields.length ≤ 65535) (isUpdate : Bool)
    (data : Bytes) (vals : List PgValue) (n : ℕ) :
    TupleDecoder.parse data fields isUpdate = .ok (vals, n) ↔
      ∃ bytes rest, data = bytes ++ rest ∧ n = bytes.length ∧
        TupleOf isUpdate fields bytes vals := by
  by_cases hmin : data.length < 2
  · have hshort : TupleDecoder.parse data fields isUpdate = fail .truncatedInput := if_pos hmin
    constructor
    · intro h
      rw [hshort] at h
      cases h
    · rintro ⟨bytes, rest, rfl, rfl, count, body, rfl, hcount, _⟩
      simp only [List.length_append] at hmin
      omega
  obtain ⟨count, tail, rfl, hcount⟩ := split_front 2 (by omega : 2 ≤ data.length)
  have hdrop : (count ++ tail).drop 2 = tail := by rw [← hcount, List.drop_left]
  rw [parse_eq_numCols count tail fields isUpdate hcount hfields]
  by_cases hfew : fields.length < BigEndian.ofBytes count
  · rw [if_pos hfew]
    constructor
    · intro h
      cases h
    · rintro ⟨bytes, rest, hdata, rfl, count', body, rfl, hcount', hle, _⟩
      rw [List.append_assoc] at hdata
      have := (List.append_inj hdata (hcount.trans hcount'.symm)).1
      rw [this] at hfew
      omega
  · rw [if_neg hfew, numCols_ok_iff _ _ _ 2 (by rw [List.length_append]; omega), hdrop]
    constructor
    · rintro ⟨body, rest, new, rfl, hitems, rfl, rfl⟩
      refine ⟨count ++ body, rest, (List.append_assoc _ _ _).symm, ?_, count, body, rfl, hcount,
        by omega, hitems⟩
      rw [List.length_append, hcount]
    · rintro ⟨bytes, rest, hdata, rfl, count', body, rfl, hcount', hle, hitems⟩
      rw [List.append_assoc] at hdata
      obtain ⟨rfl, rfl⟩ := List.append_inj hdata (hcount.trans hcount'.symm)
      exact ⟨body, rest, vals, rfl, hitems, rfl, by rw [List.length_append, hcount]⟩

/-- The decoder accepts a written row at the front of its input and nothing
else, and no byte behind that row changes the result. -/
theorem parse_accepts (fields : List Field) (hfields : fields.length ≤ 65535) (isUpdate : Bool)
    (data : Bytes) (vals : List PgValue) (n : ℕ) :
    (TupleDecoder.parse data fields isUpdate = .ok (vals, n) ↔
      n ≤ data.length ∧ TupleOf isUpdate fields (data.take n) vals) ∧
    (TupleDecoder.parse data fields isUpdate = .ok (vals, n) →
      ∀ rest, TupleDecoder.parse (data.take n ++ rest) fields isUpdate = .ok (vals, n)) := by
  have hfront : TupleDecoder.parse data fields isUpdate = .ok (vals, n) ↔
      n ≤ data.length ∧ TupleOf isUpdate fields (data.take n) vals := by
    rw [parse_ok_iff fields hfields]
    constructor
    · rintro ⟨bytes, rest, rfl, rfl, htuple⟩
      rw [List.take_left, List.length_append]
      exact ⟨by omega, htuple⟩
    · rintro ⟨hn, htuple⟩
      exact ⟨data.take n, data.drop n, (List.take_append_drop n data).symm,
        (List.length_take_of_le hn).symm, htuple⟩
  refine ⟨hfront, ?_⟩
  intro h rest
  obtain ⟨hn, htuple⟩ := hfront.mp h
  exact (parse_ok_iff fields hfields _ _ _ _).mpr
    ⟨data.take n, rest, rfl, (List.length_take_of_le hn).symm, htuple⟩

theorem parse_accepts_two_columns :
    TupleDecoder.parse [0,2, 0x62,0,0,0,1,7, 0x75, 9] [⟨true, "ok", .bool⟩, ⟨false, "s", .text⟩] true =
      .ok ([.bool true, .toasted], 9) ∧
    TupleOf true [⟨true, "ok", .bool⟩, ⟨false, "s", .text⟩] [0,2, 0x62,0,0,0,1,7, 0x75]
      [.bool true, .toasted] :=
  have h : TupleDecoder.parse [0,2, 0x62,0,0,0,1,7, 0x75, 9]
      [⟨true, "ok", .bool⟩, ⟨false, "s", .text⟩] true = .ok ([.bool true, .toasted], 9) := by decide
  ⟨h, ((parse_accepts _ (by decide) _ _ _ _).1.mp h).2⟩

end CDC.TupleSyntax
