import CdcConnector.TupleSyntax

/-!
# Refused items

Where no item of the row-tuple grammar starts, and what is reported there: the
alternatives are stated on the bytes, one for each thing that can be wrong with
an item. The value decoder refuses exactly these.
-/

set_option autoImplicit false

namespace CDC.RefusedItems
open CDC.Fallible CDC.Event CDC.Decoder CDC.RelationDecoder CDC.TupleDecoder CDC.TupleSyntax

def width : FieldKind → Option ℕ
  | .int4 => some 4
  | .int8 => some 8
  | .timestamp => some 8
  | .bool => some 1
  | .text => none

/-- A timestamp of another length is reported as an integer. -/
def reportedKind : FieldKind → FieldKind
  | .timestamp => .int8
  | kind => kind

inductive Refused (kind : FieldKind) : Bytes → Fault DecoderError → Prop where
  | ended : Refused kind [] (.error .truncatedInput)
  | toasted (rest : Bytes) : Refused kind (tagToasted :: rest) (.error .toastedValueOnNonUpdate)
  | unknown (tag : UInt8) (rest : Bytes) (h : tag ∉ [tagNull, tagToasted, tagText, tagBinary]) :
      Refused kind (tag :: rest) (.error (.wrongColTypeKey tag))
  | noLength (tag : UInt8) (rest : Bytes) (htag : tag = tagText ∨ tag = tagBinary)
      (h : rest.length < 4) : Refused kind (tag :: rest) (.error .truncatedInput)
  | cutText (len body : Bytes) (hlen : len.length = 4) (h : body.length < BigEndian.ofBytes len) :
      Refused kind (tagText :: (len ++ body)) (.error .truncatedInput)
  | badText (tag : UInt8) (htag : tag = tagText ∨ (tag = tagBinary ∧ kind = .text))
      (len payload rest : Bytes) (hlen : len.length = 4)
      (hp : BigEndian.ofBytes len = payload.length) (h : ∀ s, payload ≠ utf8Bytes s) :
      Refused kind (tag :: (len ++ (payload ++ rest))) (.error .nonUtf8Simd)
  | otherWidth (w : ℕ) (hw : width kind = some w) (len body : Bytes) (hlen : len.length = 4)
      (h : BigEndian.ofBytes len ≠ w) :
      Refused kind (tagBinary :: (len ++ body)) (.error (.wrongFieldKind (reportedKind kind)))
  | cutBinary (w : ℕ) (hw : width kind = some w) (len body : Bytes) (hlen : len.length = 4)
      (hl : BigEndian.ofBytes len = w) (h : body.length < w) :
      Refused kind (tagBinary :: (len ++ body)) (.error .truncatedInput)
  -- the length of a binary text is not compared with the input
  | cutBinaryText (hkind : kind = .text) (len body : Bytes) (hlen : len.length = 4)
      (h : body.length < BigEndian.ofBytes len) : Refused kind (tagBinary :: (len ++ body)) .panic

theorem parseI64_cut (head body : Bytes) (hhead : head.length = 5) (h : body.length < 8) :
    parseI64 8 (head ++ body) = fail .truncatedInput := by
  have hmin : (head ++ body).length < 13 := by
    rw [List.length_append, hhead]
    omega
  rw [parseI64, if_neg (not_not.mpr rfl), if_pos hmin]

theorem parseI64_whole (head body : Bytes) (hhead : head.length = 5) (h : 8 ≤ body.length) :
    ∃ n, parseI64 8 (head ++ body) = .ok n := by
  have hmin : ¬ (head ++ body).length < 13 := by
    rw [List.length_append, hhead]
    omega
  have hread : readU64 (head ++ body) 5 = .ok (UInt64.ofNat (BigEndian.ofBytes (body.take 8))) := by
    rw [readU64, slice_behind head body hhead 8 h]
    rfl
  refine ⟨(UInt64.ofNat (BigEndian.ofBytes (body.take 8))).toInt64, ?_⟩
  simp only [parseI64, ne_eq, not_true_eq_false, if_false, hmin, hread, ok_bind, pure_ok]

theorem parseBinary_width (kind : FieldKind) (w : ℕ) (hw : width kind = some w) (head body : Bytes)
    (hhead : head.length = 5) (l : ℕ) :
    (l ≠ w → parseBinary (head ++ body) kind l = fail (.wrongFieldKind (reportedKind kind))) ∧
      (l = w → body.length < w → parseBinary (head ++ body) kind l = fail .truncatedInput) ∧
      (l = w → w ≤ body.length → ∃ v, parseBinary (head ++ body) kind l = .ok v) := by
  have hlen : (head ++ body).length = 5 + body.length := by rw [List.length_append, hhead]
  cases kind with
  | text => cases hw
  | int4 =>
    cases hw
    refine ⟨fun h => if_pos h, ?_, ?_⟩
    · rintro rfl h
      have hmin : (head ++ body).length < 9 := by omega
      simp only [parseBinary, ne_eq, not_true_eq_false, if_false, hmin, if_true]
    · rintro rfl h
      have hmin : ¬ (head ++ body).length < 9 := by omega
      have hread : readU32 (head ++ body) 5 =
          .ok (UInt32.ofNat (BigEndian.ofBytes (body.take 4))) := by
        rw [readU32, slice_behind head body hhead 4 h]
        rfl
      refine ⟨.int4 (UInt32.ofNat (BigEndian.ofBytes (body.take 4))).toInt32, ?_⟩
      simp only [parseBinary, ne_eq, not_true_eq_false, if_false, hmin, hread, ok_bind, pure_ok]
  | bool =>
    cases hw
    refine ⟨fun h => if_pos h, ?_, ?_⟩
    · rintro rfl h
      have hmin : (head ++ body).length < 6 := by omega
      simp only [parseBinary, ne_eq, not_true_eq_false, if_false, hmin, if_true]
    · rintro rfl h
      have hmin : ¬ (head ++ body).length < 6 := by omega
      have hread := index_ok (ε := DecoderError) (head ++ body) 5 (by omega)
      refine ⟨.bool ((head ++ body)[5] ≠ 0), ?_⟩
      simp only [parseBinary, ne_eq, not_true_eq_false, if_false, hmin, hread, ok_bind, pure_ok]
  | int8 =>
    cases hw
    refine ⟨fun h => by rw [parseBinary, parseI64, if_pos h]; rfl, ?_, ?_⟩
    · rintro rfl h
      rw [parseBinary, parseI64_cut head body hhead h]
      rfl
    · rintro rfl h
      obtain ⟨n, hn⟩ := parseI64_whole head body hhead h
      exact ⟨.int8 n, by rw [parseBinary, hn]; rfl⟩
  | timestamp =>
    cases hw
    refine ⟨fun h => by rw [parseBinary, parseI64, if_pos h]; rfl, ?_, ?_⟩
    · rintro rfl h
      rw [parseBinary, parseI64_cut head body hhead h]
      rfl
    · rintro rfl h
      obtain ⟨n, hn⟩ := parseI64_whole head body hhead h
      exact ⟨.timestamp n, by rw [parseBinary, hn]; rfl⟩

theorem fromUtf8_refuses (bytes : Bytes) (h : ∀ s, bytes ≠ utf8Bytes s) :
    fromUtf8 bytes = fail .nonUtf8Simd := by
  cases hs : fromUtf8 bytes with
  | ok s => exact absurd ((fromUtf8_ok_iff bytes s).mp hs) (h s)
  | error x =>
    unfold fromUtf8 at hs
    split at hs
    · cases hs
    · exact hs.symm

section Value
variable {F : Type} [FieldAccess F] (field : F)

theorem text_reads (len body : Bytes) (hlen : len.length = 4) :
    parseValue (tagText :: (len ++ body)) field false =
      if body.length < BigEndian.ofBytes len then fail .truncatedInput
      else fromUtf8 (body.take (BigEndian.ofBytes len)) >>= fun s =>
        .ok (.text s, 5 + BigEndian.ofBytes len) := by
  obtain ⟨x, hx, hn⟩ := readU32_after_tag tagText len body hlen
  have hi : (index (tagText :: (len ++ body)) 0 : Decoded UInt8) = .ok tagText := rfl
  have he : (tagText :: (len ++ body)).isEmpty = false := rfl
  have hwhole : (tagText :: (len ++ body)).length = 5 + body.length := by
    rw [List.length_cons, List.length_append, hlen]
    omega
  have hmin : ¬ (tagText :: (len ++ body)).length < 5 := by omega
  have htags : tagText ≠ tagNull ∧ tagText ≠ tagToasted := by decide
  simp only [parseValue, he, hi, hx, hn, hmin, htags, ok_bind, Bool.false_eq_true, if_false, if_true]
  rw [hwhole]
  by_cases hb : body.length < BigEndian.ofBytes len
  · rw [if_pos hb, if_pos (by omega)]
  · have hs := slice_behind (tagText :: len) body (by rw [List.length_cons, hlen])
      (BigEndian.ofBytes len) (by omega)
    rw [List.cons_append] at hs
    rw [if_neg hb, if_neg (by omega), hs]
    rfl

theorem binary_reads (len body : Bytes) (hlen : len.length = 4) :
    parseValue (tagBinary :: (len ++ body)) field false =
      parseBinary (tagBinary :: (len ++ body)) (FieldAccess.getKind field) (BigEndian.ofBytes len) >>=
        fun v => .ok (v, 5 + BigEndian.ofBytes len) := by
  obtain ⟨x, hx, hn⟩ := readU32_after_tag tagBinary len body hlen
  have hi : (index (tagBinary :: (len ++ body)) 0 : Decoded UInt8) = .ok tagBinary := rfl
  have he : (tagBinary :: (len ++ body)).isEmpty = false := rfl
  have hmin : ¬ (tagBinary :: (len ++ body)).length < 5 := by simp [hlen]
  have htags : tagBinary ≠ tagNull ∧ tagBinary ≠ tagToasted ∧ tagBinary ≠ tagText := by decide
  simp only [parseValue, he, hi, hx, hn, hmin, htags, ok_bind, Bool.false_eq_true, if_false, if_true]
  rfl

theorem binary_text_reads (len body : Bytes) (hlen : len.length = 4) :
    parseBinary (tagBinary :: (len ++ body)) .text (BigEndian.ofBytes len) =
      if body.length < BigEndian.ofBytes len then panicked
      else fromUtf8 (body.take (BigEndian.ofBytes len)) >>= fun s => .ok (.text s) := by
  have hhead : (tagBinary :: len).length = 5 := by rw [List.length_cons, hlen]
  by_cases hb : body.length < BigEndian.ofBytes len
  · have hs : (slice (tagBinary :: (len ++ body)) 5 (5 + BigEndian.ofBytes len) : Decoded Bytes) =
        panicked := by
      rw [slice_panics_iff, List.length_cons, List.length_append, hlen]
      omega
    rw [if_pos hb, parseBinary, hs]
    rfl
  · have hs := slice_behind (tagBinary :: len) body hhead (BigEndian.ofBytes len) (by omega)
    rw [List.cons_append] at hs
    rw [if_neg hb, parseBinary, hs]
    rfl

theorem refused_sound (data : Bytes) (x : Fault DecoderError)
    (h : Refused (FieldAccess.getKind field) data x) : parseValue data field false = .error x := by
  cases h with
  | ended => rfl
  | toasted rest => rfl
  | unknown tag rest h =>
    simp only [List.mem_cons, List.not_mem_nil, or_false, not_or] at h
    have hi : (index (tag :: rest) 0 : Decoded UInt8) = .ok tag := rfl
    have he : (tag :: rest).isEmpty = false := rfl
    simp only [parseValue, he, hi, h, ok_bind, Bool.false_eq_true, if_false]
    rfl
  | noLength tag rest htag h =>
    have hmin : (tag :: rest).length < 5 := by
      rw [List.length_cons]
      omega
    have he : (tag :: rest).isEmpty = false := rfl
    have hi : (index (tag :: rest) 0 : Decoded UInt8) = .ok tag := rfl
    rcases htag with rfl | rfl
    · have htags : tagText ≠ tagNull ∧ tagText ≠ tagToasted := by decide
      simp only [parseValue, he, hi, htags, hmin, ok_bind, Bool.false_eq_true, if_false, if_true]
      rfl
    · have htags : tagBinary ≠ tagNull ∧ tagBinary ≠ tagToasted ∧ tagBinary ≠ tagText := by decide
      simp only [parseValue, he, hi, htags, hmin, ok_bind, Bool.false_eq_true, if_false, if_true]
      rfl
  | cutText len body hlen h =>
    rw [text_reads field len body hlen, if_pos h]
    rfl
  | badText tag htag len payload rest hlen hp h =>
    have hlong : ¬ (payload ++ rest).length < BigEndian.ofBytes len := by
      rw [List.length_append]
      omega
    have htake : (payload ++ rest).take (BigEndian.ofBytes len) = payload := by
      rw [hp, List.take_left]
    rcases htag with rfl | ⟨rfl, hkind⟩
    · rw [text_reads field len _ hlen, if_neg hlong, htake, fromUtf8_refuses payload h]
      rfl
    · rw [binary_reads field len _ hlen, hkind, binary_text_reads len _ hlen, if_neg hlong, htake,
        fromUtf8_refuses payload h]
      rfl
  | otherWidth w hw len body hlen h =>
    have hb := (parseBinary_width _ w hw (tagBinary :: len) body (by rw [List.length_cons, hlen])
      (BigEndian.ofBytes len)).1 h
    rw [List.cons_append] at hb
    rw [binary_reads field len body hlen, hb]
    rfl
  | cutBinary w hw len body hlen hl h =>
    have hb := (parseBinary_width _ w hw (tagBinary :: len) body (by rw [List.length_cons, hlen])
      (BigEndian.ofBytes len)).2.1 hl h
    rw [List.cons_append] at hb
    rw [binary_reads field len body hlen, hb]
    rfl
  | cutBinaryText hkind len body hlen h =>
    rw [binary_reads field len body hlen, hkind, binary_text_reads len body hlen, if_pos h]
    rfl

theorem text_or_refused (len body : Bytes) (hlen : len.length = 4) :
    (∃ r, parseValue (tagText :: (len ++ body)) field false = .ok r) ∨
      ∃ x, Refused (FieldAccess.getKind field) (tagText :: (len ++ body)) x := by
  by_cases hcut : body.length < BigEndian.ofBytes len
  · exact Or.inr ⟨_, .cutText len body hlen hcut⟩
  · rw [text_reads field len body hlen, if_neg hcut]
    by_cases hbad : ∀ s, body.take (BigEndian.ofBytes len) ≠ utf8Bytes s
    · right
      have hbody := List.take_append_drop (BigEndian.ofBytes len) body
      rw [← hbody]
      refine ⟨_, .badText tagText (Or.inl rfl) len _ _ hlen ?_ hbad⟩
      rw [List.length_take_of_le (by omega)]
    · left
      push Not at hbad
      obtain ⟨s, hs⟩ := hbad
      rw [hs, fromUtf8_utf8Bytes]
      exact ⟨_, rfl⟩

theorem binary_or_refused (len body : Bytes) (hlen : len.length = 4) :
    (∃ r, parseValue (tagBinary :: (len ++ body)) field false = .ok r) ∨
      ∃ x, Refused (FieldAccess.getKind field) (tagBinary :: (len ++ body)) x := by
  rw [binary_reads field len body hlen]
  cases hw : width (FieldAccess.getKind field) with
  | some w =>
    have hb := parseBinary_width _ w hw (tagBinary :: len) body (by rw [List.length_cons, hlen])
      (BigEndian.ofBytes len)
    rw [List.cons_append] at hb
    by_cases hother : BigEndian.ofBytes len = w
    · by_cases hcut : body.length < w
      · exact Or.inr ⟨_, .cutBinary w hw len body hlen hother hcut⟩
      · obtain ⟨v, hv⟩ := hb.2.2 hother (by omega)
        rw [hv]
        exact Or.inl ⟨_, rfl⟩
    · exact Or.inr ⟨_, .otherWidth w hw len body hlen hother⟩
  | none =>
    have hkind : FieldAccess.getKind field = .text := by
      cases hk : FieldAccess.getKind field with
      | text => rfl
      | _ =>
        rw [hk] at hw
        cases hw
    by_cases hcut : body.length < BigEndian.ofBytes len
    · exact Or.inr ⟨_, .cutBinaryText hkind len body hlen hcut⟩
    · rw [hkind, binary_text_reads len body hlen, if_neg hcut]
      by_cases hbad : ∀ s, body.take (BigEndian.ofBytes len) ≠ utf8Bytes s
      · right
        have hbody := List.take_append_drop (BigEndian.ofBytes len) body
        rw [← hbody]
        refine ⟨_, .badText tagBinary (Or.inr ⟨rfl, rfl⟩) len _ _ hlen ?_ hbad⟩
        rw [List.length_take_of_le (by omega)]
      · left
        push Not at hbad
        obtain ⟨s, hs⟩ := hbad
        rw [hs, fromUtf8_utf8Bytes]
        exact ⟨_, rfl⟩

theorem read_or_refused (data : Bytes) :
    (∃ r, parseValue data field false = .ok r) ∨ ∃ x, Refused (FieldAccess.getKind field) data x := by
  cases data with
  | nil => exact Or.inr ⟨_, .ended⟩
  | cons tag rest =>
    by_cases hunknown : tag ∉ [tagNull, tagToasted, tagText, tagBinary]
    · exact Or.inr ⟨_, .unknown tag rest hunknown⟩
    · simp only [not_not, List.mem_cons, List.not_mem_nil, or_false] at hunknown
      rcases hunknown with rfl | rfl | hlong
      · exact Or.inl ⟨_, rfl⟩
      · exact Or.inr ⟨_, .toasted rest⟩
      · by_cases hshort : rest.length < 4
        · exact Or.inr ⟨_, .noLength tag rest hlong hshort⟩
        · obtain ⟨len, body, rfl, hlen⟩ := split_front 4 (by omega : 4 ≤ rest.length)
          rcases hlong with rfl | rfl
          · exact text_or_refused field len body hlen
          · exact binary_or_refused field len body hlen

/-- A value is refused exactly where no item starts, with what is wrong there. -/
theorem parseValue_error_iff (data : Bytes) (x : Fault DecoderError) :
    parseValue data field false = .error x ↔ Refused (FieldAccess.getKind field) data x := by
  constructor
  · intro h
    rcases read_or_refused field data with ⟨r, hr⟩ | ⟨y, hy⟩
    · rw [hr] at h
      cases h
    · have hy' := refused_sound field data y hy
      rw [h] at hy'
      cases hy'
      exact hy
  · exact refused_sound field data x

end Value

end CDC.RefusedItems
