import CdcConnector.KeyTuple

/-!
# Where the tuple decoders panic

A binary text longer than the input is sliced unchecked. The row loops panic
nowhere else; the key loops also run past the input over skipped columns, and
past the key lists.
-/

set_option autoImplicit false

namespace CDC.TuplePanics
open CDC.Fallible CDC.Event CDC.Decoder CDC.RelationDecoder CDC.TupleDecoder CDC.TupleSyntax
open CDC.KeyTuple

/-- A binary item in a text column that claims more bytes than there are. -/
def Overlong (kind : FieldKind) (input : Bytes) : Prop :=
  kind = .text ∧ ∃ len body, input = tagBinary :: (len ++ body) ∧ len.length = 4 ∧
    body.length < BigEndian.ofBytes len

theorem readU32_total (data : Bytes) (pos : ℕ) (h : pos + 4 ≤ data.length) :
    readU32 data pos ≠ panicked := by
  simp [readU32, slice_ok data pos (pos + 4) ⟨by omega, h⟩]

theorem parseI64_total (l : ℕ) (data : Bytes) : parseI64 l data ≠ panicked := by
  unfold parseI64
  split_ifs with hl hmin
  · simp
  · simp
  · simp [readU64, slice_ok data 5 (5 + 8) ⟨by omega, by omega⟩]

theorem fromUtf8_total (bytes : Bytes) : fromUtf8 bytes ≠ panicked := by
  unfold fromUtf8
  split <;> simp

theorem parseBinary_panics_iff (data : Bytes) (kind : FieldKind) (l : ℕ) :
    parseBinary data kind l = panicked ↔ kind = .text ∧ data.length < 5 + l := by
  cases kind with
  | int4 =>
    simp only [parseBinary]
    split_ifs with hl hmin
    · simp
    · simp
    · simp [bind_panics_iff, readU32_total data 5 (by omega)]
  | text =>
    simp only [parseBinary, bind_panics_iff, slice_panics_iff, fromUtf8_total, pure_ok,
      ok_ne_panicked, and_false, exists_false, or_false, true_and]
    omega
  | int8 => simp [parseBinary, bind_panics_iff, parseI64_total]
  | bool =>
    simp only [parseBinary]
    split_ifs with hl hmin
    · simp
    · simp
    · simp [index_ok data 5 (by omega)]
  | timestamp => simp [parseBinary, bind_panics_iff, parseI64_total]

section Value
variable {F : Type} [FieldAccess F]

theorem parseValue_binary_panics_iff (tail : Bytes) (field : F) (isUpdate : Bool) :
    parseValue (tagBinary :: tail) field isUpdate = panicked ↔
      Overlong (FieldAccess.getKind field) (tagBinary :: tail) := by
  have hi : (index (tagBinary :: tail) 0 : Decoded UInt8) = .ok tagBinary := rfl
  have he : (tagBinary :: tail).isEmpty = false := rfl
  have htags : tagBinary ≠ tagNull ∧ tagBinary ≠ tagToasted ∧ tagBinary ≠ tagText := by decide
  simp only [parseValue, he, hi, htags, ok_bind, Bool.false_eq_true, if_false, if_true]
  by_cases hmin : (tagBinary :: tail).length < 5
  · rw [if_pos hmin]
    simp only [fail_ne_panicked, false_iff]
    rintro ⟨_, len, body, htail, hlen, _⟩
    rw [htail, List.length_cons, List.length_append] at hmin
    omega
  · rw [List.length_cons] at hmin
    obtain ⟨len, body, rfl, hlen⟩ := split_front 4 (by omega : 4 ≤ tail.length)
    obtain ⟨x, hx, hn⟩ := readU32_after_tag tagBinary len body hlen
    rw [List.length_append] at hmin
    simp only [List.length_cons, List.length_append, hmin, if_false, hx, ok_bind, hn,
      bind_panics_iff, parseBinary_panics_iff, pure_ok, ok_ne_panicked, and_false, exists_false,
      or_false]
    constructor
    · rintro ⟨htext, hover⟩
      exact ⟨htext, len, body, rfl, hlen, by omega⟩
    · rintro ⟨htext, len', body', heq, hlen', hover⟩
      obtain ⟨rfl, rfl⟩ := List.append_inj (List.cons.inj heq).2 (hlen.trans hlen'.symm)
      exact ⟨htext, by omega⟩

theorem parseValue_other_total (tag : UInt8) (tail : Bytes) (field : F) (isUpdate : Bool)
    (hbinary : tag ≠ tagBinary) : parseValue (tag :: tail) field isUpdate ≠ panicked := by
  have hi : (index (tag :: tail) 0 : Decoded UInt8) = .ok tag := rfl
  have he : (tag :: tail).isEmpty = false := rfl
  simp only [parseValue, he, hi, hbinary, ok_bind, Bool.false_eq_true, if_false, pure_ok]
  split_ifs with hnull htoast hupdate htext hmin
  · simp
  · simp
  · simp
  · simp
  · have hr := readU32_total (tag :: tail) 1 (by omega)
    simp only [ne_eq, bind_panics_iff, hr, false_or, not_exists, not_and]
    intro l _
    split_ifs with hmax
    · simp
    · have hs : (slice (tag :: tail) 5 (5 + l.toNat) : Decoded Bytes) ≠ panicked := by
        rw [ne_eq, slice_panics_iff]
        omega
      simp [bind_panics_iff, hs, fromUtf8_total]
  · simp

/-- One value: only an overlong binary text panics. -/
theorem parseValue_panics_iff (data : Bytes) (field : F) (isUpdate : Bool) :
    parseValue data field isUpdate = panicked ↔ Overlong (FieldAccess.getKind field) data := by
  cases data with
  | nil =>
    have he : parseValue ([] : Bytes) field isUpdate = fail .truncatedInput := rfl
    simp [he, Overlong]
  | cons tag tail =>
    by_cases hbinary : tag = tagBinary
    · rw [hbinary]
      exact parseValue_binary_panics_iff tail field isUpdate
    · refine iff_of_false (parseValue_other_total tag tail field isUpdate hbinary) ?_
      rintro ⟨_, len, body, heq, _⟩
      exact hbinary (List.cons.inj heq).1

def Overruns (isUpdate : Bool) (left : ℕ) (fields : List F) (input : Bytes) : Prop :=
  ∃ done todo items tail vals, fields = done ++ todo ∧ done.length < left ∧ input = items ++ tail ∧
    ItemsOf isUpdate done items vals ∧
      ∀ field, todo.head? = some field → Overlong (FieldAccess.getKind field) tail

theorem overruns_nil (isUpdate : Bool) (left : ℕ) (input : Bytes) :
    Overruns isUpdate (left+1) ([] : List F) input :=
  ⟨[], [], [], input, [], rfl, by simp, rfl, .nil, fun _ h => by cases h⟩

theorem overruns_cons (isUpdate : Bool) (left : ℕ) (field : F) (fields : List F) (input : Bytes) :
    Overruns isUpdate (left+1) (field::fields) input ↔
      Overlong (FieldAccess.getKind field) input ∨
        ∃ item rest v, input = item ++ rest ∧ ItemOf isUpdate (FieldAccess.getKind field) item v ∧
          Overruns isUpdate left fields rest := by
  constructor
  · rintro ⟨done, todo, items, tail, vals, hsplit, hlt, rfl, hitems, hover⟩
    cases hitems with
    | nil =>
      refine Or.inl (hover field ?_)
      rw [← List.nil_append todo, ← hsplit]
      rfl
    | cons first done item bytes v vals hitem hitems =>
      obtain ⟨rfl, rfl⟩ := List.cons.inj hsplit
      refine Or.inr ⟨item, bytes ++ tail, v, List.append_assoc _ _ _, hitem, done, todo, bytes, tail,
        vals, rfl, ?_, rfl, hitems, hover⟩
      rw [List.length_cons] at hlt
      omega
  · rintro (hover | ⟨item, rest, v, rfl, hitem, done, todo, items, tail, vals, rfl, hlt, rfl, hitems,
      hover⟩)
    · refine ⟨[], field::fields, [], input, [], rfl, by simp, rfl, .nil, fun f hf => ?_⟩
      cases hf
      exact hover
    · refine ⟨field::done, todo, item ++ items, tail, v::vals, rfl, ?_,
        (List.append_assoc _ _ _).symm, .cons field done item items v vals hitem hitems, hover⟩
      rw [List.length_cons]
      omega

theorem anyCols_panics_iff (data : Bytes) (fields : List F) (isUpdate : Bool) (left i lastPos : ℕ)
    (hpos : lastPos ≤ data.length) (cols : List PgValue) :
    anyCols data fields isUpdate left i lastPos cols = panicked ↔
      Overruns isUpdate left (fields.drop i) (data.drop lastPos) := by
  induction left generalizing i lastPos cols with
  | zero =>
    simp only [anyCols, pure_ok, ok_ne_panicked, false_iff]
    rintro ⟨done, _, _, _, _, _, hlt, _⟩
    omega
  | succ left ih =>
    simp only [anyCols, sliceFrom_ok _ _ hpos, ok_bind]
    by_cases hi : i < fields.length
    · rw [List.drop_eq_getElem_cons hi, overruns_cons, index_ok fields i hi, ok_bind, bind_panics_iff,
        parseValue_panics_iff]
      refine or_congr_right ?_
      constructor
      · rintro ⟨⟨v, l⟩, hv, hrec⟩
        obtain ⟨item, rest, hdrop, rfl, hitem⟩ := (parseValue_ok_iff _ _ _ _ _).mp hv
        obtain ⟨hnext, htail⟩ := drop_item hpos hdrop
        have hrest := (ih (i+1) _ hnext _).mp hrec
        rw [htail] at hrest
        exact ⟨item, rest, v, hdrop, hitem, hrest⟩
      · rintro ⟨item, rest, v, hdrop, hitem, hrest⟩
        obtain ⟨hnext, htail⟩ := drop_item hpos hdrop
        refine ⟨(v, item.length), (parseValue_ok_iff _ _ _ _ _).mpr ⟨item, rest, hdrop, rfl, hitem⟩,
          (ih (i+1) _ hnext _).mpr ?_⟩
        rwa [htail]
    · have hnil : fields.drop i = [] := List.drop_eq_nil_of_le (by omega)
      rw [hnil, index_panics fields i (by omega)]
      exact iff_of_true rfl (overruns_nil isUpdate left _)

end Value

theorem counted_iff {P : Bytes → Bytes → Prop} (count body : Bytes) (hcount : count.length = 2) :
    (∃ c b, count ++ body = c ++ b ∧ c.length = 2 ∧ P c b) ↔ P count body := by
  constructor
  · rintro ⟨c, b, heq, hc, h⟩
    obtain ⟨rfl, rfl⟩ := List.append_inj heq (hcount.trans hc.symm)
    exact h
  · exact fun h => ⟨count, body, rfl, hcount, h⟩

/-- A row: the count is in range and an item of a counted column is overlong. -/
def RowOverruns (isUpdate : Bool) (fields : List Field) (data : Bytes) : Prop :=
  ∃ count body, data = count ++ body ∧ count.length = 2 ∧
    BigEndian.ofBytes count ≤ fields.length ∧ Overruns isUpdate (BigEndian.ofBytes count) fields body

theorem parse_panics_iff (data : Bytes) (fields : List Field) (isUpdate : Bool)
    (hfields : fields.length ≤ 65535) :
    TupleDecoder.parse data fields isUpdate = panicked ↔ RowOverruns isUpdate fields data := by
  by_cases hmin : data.length < 2
  · have hshort : TupleDecoder.parse data fields isUpdate = fail .truncatedInput := if_pos hmin
    rw [hshort]
    simp only [fail_ne_panicked, false_iff]
    rintro ⟨count, body, rfl, hcount, _⟩
    rw [List.length_append] at hmin
    omega
  obtain ⟨count, body, rfl, hcount⟩ := split_front 2 (by omega : 2 ≤ data.length)
  have hdrop : (count ++ body).drop 2 = body := by rw [← hcount, List.drop_left]
  rw [RowOverruns, counted_iff count body hcount]
  rw [parse_eq_numCols count body fields isUpdate hcount hfields]
  by_cases hfew : fields.length < BigEndian.ofBytes count
  · rw [if_pos hfew]
    simp only [fail_ne_panicked, false_iff, not_and]
    omega
  · have hloops := anyCols_eq_numCols (count ++ body) fields isUpdate (BigEndian.ofBytes count) 0 2
      (by omega) []
    rw [List.drop_zero] at hloops
    rw [if_neg hfew, ← hloops, anyCols_panics_iff _ _ _ _ _ 2 (by rw [List.length_append]; omega),
      hdrop, List.drop_zero]
    simp only [iff_and_self]
    omega

/-- How a tuple decoder ends: with a panic, or with the size it reports. -/
def Ends (x : Decoded (List PgValue × ℕ)) : Option ℕ → Prop
  | none => x = panicked
  | some n => ∃ vals, x = .ok (vals, n)

/-- The unrolled key loop on its input: a column that is no key takes one
byte, unread; a key column is read where it starts. The loop ends at a key
whose column is not before the last key index, or after `left` columns. -/
inductive KeyScan (data : Bytes) (lastKey total : ℕ) :
    ℕ → List Field → ℕ → ℕ → Option ℕ → Prop where
  | done (fields : List Field) (i pos : ℕ) : KeyScan data lastKey total 0 fields i pos (some pos)
  | skip (left : ℕ) (f : Field) (fields : List Field) (i pos : ℕ) (r : Option ℕ)
      (hf : f.isKey = false) (h : KeyScan data lastKey total left fields (i+1) (pos+1) r) :
      KeyScan data lastKey total (left+1) (f::fields) i pos r
  | outside (left : ℕ) (f : Field) (fields : List Field) (i pos : ℕ) (hf : f.isKey = true)
      (h : data.length < pos) : KeyScan data lastKey total (left+1) (f::fields) i pos none
  | overlong (left : ℕ) (f : Field) (fields : List Field) (i pos : ℕ) (hf : f.isKey = true)
      (hpos : pos ≤ data.length) (h : Overlong f.kind (data.drop pos)) :
      KeyScan data lastKey total (left+1) (f::fields) i pos none
  | last (left : ℕ) (f : Field) (fields : List Field) (i pos : ℕ) (hf : f.isKey = true)
      (hpos : pos ≤ data.length) (item rest : Bytes) (v : PgValue)
      (hdrop : data.drop pos = item ++ rest) (hitem : ItemOf false f.kind item v)
      (hlast : lastKey ≤ i) :
      KeyScan data lastKey total (left+1) (f::fields) i pos (some (pos + item.length + total - i))
  | next (left : ℕ) (f : Field) (fields : List Field) (i pos : ℕ) (r : Option ℕ)
      (hf : f.isKey = true) (hpos : pos ≤ data.length) (item rest : Bytes) (v : PgValue)
      (hdrop : data.drop pos = item ++ rest) (hitem : ItemOf false f.kind item v)
      (hnext : i < lastKey)
      (h : KeyScan data lastKey total left fields (i+1) (pos + item.length) r) :
      KeyScan data lastKey total (left+1) (f::fields) i pos r

theorem keyCols_at_key (data : Bytes) (keys : List KeyField) (indexes : List ℕ)
    (total left i k pos : ℕ) (cols : List PgValue) (field : KeyField)
    (hnext : (index indexes k : Decoded ℕ) = .ok i)
    (hkey : (index keys k : Decoded KeyField) = .ok field) (hsome : 1 ≤ indexes.length)
    (hi : i ≤ total) :
    keyCols data keys indexes total (left+1) i k pos cols =
      (sliceFrom data pos >>= fun rest => parseValue rest field false >>= fun (v, l) =>
        if i < indexes.length - 1 then
          keyCols data keys indexes total left (i+1) (k+1) (pos + l) (cols ++ [v])
        else .ok (cols ++ [v], pos + l + total - i)) := by
  have hlast := subtract_ok (ε := DecoderError) indexes.length 1 hsome
  have hsize : ∀ l, (subtract (pos + l + total) i : Decoded ℕ) = .ok (pos + l + total - i) :=
    fun l => subtract_ok _ _ (by omega)
  simp only [keyCols, hnext, hkey, hlast, hsize, ok_bind, pure_ok, if_true]

structure InLoop (keys : List KeyField) (indexes : List ℕ) (total : ℕ) (fields : List Field)
    (i k : ℕ) : Prop where
  keysFrom : KeysFrom keys indexes fields i k
  some_key : keyIndexesFrom i fields ≠ []
  columns : i + fields.length = total

section InLoop
variable {keys : List KeyField} {indexes : List ℕ} {total : ℕ} {f : Field} {fields : List Field}
  {i k : ℕ}

theorem not_inLoop_nil : ¬ InLoop keys indexes total [] i k := fun h => h.some_key rfl

theorem inLoop_plain (h : InLoop keys indexes total (f::fields) i k) (hf : f.isKey = false) :
    InLoop keys indexes total fields (i+1) k ∧ ∀ (data : Bytes) (left pos : ℕ) (cols : List PgValue),
      keyCols data keys indexes total (left+1) i k pos cols =
        keyCols data keys indexes total left (i+1) k (pos+1) cols := by
  have hfrom := keysFrom_plain h.keysFrom hf
  have hsome := h.some_key
  have hcolumns := h.columns
  rw [List.length_cons] at hcolumns
  rw [keyIndexesFrom_plain i f fields hf] at hsome
  obtain ⟨next, tail, hnt⟩ := List.exists_cons_of_ne_nil hsome
  have hge : i + 1 ≤ next := keyIndexesFrom_ge (i+1) fields next (by rw [hnt]; simp)
  have hnext := (drop_cons_index (hfrom.indexes_left.trans hnt)).1
  refine ⟨⟨hfrom, hsome, by omega⟩, ?_⟩
  intro data left pos cols
  exact keyCols_plain keys indexes total left i k next pos data cols hnext (by omega)

theorem inLoop_key (h : InLoop keys indexes total (f::fields) i k) (hf : f.isKey = true) :
    (i < indexes.length - 1 → InLoop keys indexes total fields (i+1) (k+1)) ∧
      ∀ (data : Bytes) (left pos : ℕ) (cols : List PgValue),
        keyCols data keys indexes total (left+1) i k pos cols =
          (sliceFrom data pos >>= fun rest =>
            parseValue rest (⟨f.name, f.kind⟩ : KeyField) false >>= fun (v, l) =>
              if i < indexes.length - 1 then
                keyCols data keys indexes total left (i+1) (k+1) (pos + l) (cols ++ [v])
              else .ok (cols ++ [v], pos + l + total - i)) := by
  obtain ⟨hnext, hkey, hlt, hfrom⟩ := keysFrom_key h.keysFrom hf
  have hcount := hfrom.count
  have hbehind := h.keysFrom.behind
  have hcolumns := h.columns
  rw [List.length_cons] at hcolumns
  constructor
  · intro hi
    refine ⟨hfrom, ?_, by omega⟩
    intro hnone
    rw [hnone, List.length_nil] at hcount
    omega
  · intro data left pos cols
    exact keyCols_at_key data keys indexes total left i k pos cols ⟨f.name, f.kind⟩ hnext hkey
      (by omega) (by omega)

end InLoop

theorem ends_panicked (r : Option ℕ) : Ends panicked r ↔ r = none := by
  cases r with
  | none => simp [Ends]
  | some n => simp [Ends, panicked]

theorem ends_ok (vals : List PgValue) (n : ℕ) (r : Option ℕ) :
    Ends (.ok (vals, n)) r ↔ r = some n := by
  cases r with
  | none => simp [Ends]
  | some m => simp [Ends, eq_comm]

theorem ends_fail (e : DecoderError) (r : Option ℕ) : ¬ Ends (fail e) r := by
  cases r with
  | none => simp [Ends]
  | some n => simp [Ends, fail]

theorem ends_bind {α : Type} (x : Decoded α) (g : α → Decoded (List PgValue × ℕ))
    (r : Option ℕ) :
    Ends (x >>= g) r ↔ (x = panicked ∧ r = none) ∨ ∃ a, x = .ok a ∧ Ends (g a) r := by
  cases x with
  | ok a => simp
  | error x =>
    cases x with
    | panic => exact (ends_panicked r).trans (by simp [panicked])
    | error e => exact iff_of_false (ends_fail e r) (by simp [panicked])

section KeyLoop
variable {data : Bytes} {lastKey total left : ℕ} {f : Field} {fields : List Field} {i pos : ℕ}
  {r : Option ℕ}

theorem keyScan_zero : KeyScan data lastKey total 0 fields i pos r ↔ r = some pos := by
  constructor
  · intro h
    cases h
    rfl
  · rintro rfl
    exact .done fields i pos

theorem keyScan_plain (hf : f.isKey = false) :
    KeyScan data lastKey total (left+1) (f::fields) i pos r ↔
      KeyScan data lastKey total left fields (i+1) (pos+1) r := by
  constructor
  · intro h
    cases h with
    | skip _ _ _ _ _ _ _ h => exact h
    | outside _ _ _ _ _ hkey => simp [hf] at hkey
    | overlong _ _ _ _ _ hkey => simp [hf] at hkey
    | last _ _ _ _ _ hkey => simp [hf] at hkey
    | next _ _ _ _ _ _ hkey => simp [hf] at hkey
  · exact .skip left f fields i pos r hf

theorem keyScan_outside (hf : f.isKey = true) (h : data.length < pos) :
    KeyScan data lastKey total (left+1) (f::fields) i pos r ↔ r = none := by
  constructor
  · intro hs
    cases hs with
    | skip _ _ _ _ _ _ hplain => simp [hf] at hplain
    | outside => rfl
    | overlong => rfl
    | last _ _ _ _ _ _ hpos => omega
    | next _ _ _ _ _ _ _ hpos => omega
  · rintro rfl
    exact .outside left f fields i pos hf h

theorem keyScan_read (hf : f.isKey = true) (hpos : pos ≤ data.length) :
    KeyScan data lastKey total (left+1) (f::fields) i pos r ↔
      (Overlong f.kind (data.drop pos) ∧ r = none) ∨
        ∃ item rest v, data.drop pos = item ++ rest ∧ ItemOf false f.kind item v ∧
          ((lastKey ≤ i ∧ r = some (pos + item.length + total - i)) ∨
            (i < lastKey ∧ KeyScan data lastKey total left fields (i+1) (pos + item.length) r)) := by
  constructor
  · intro hs
    cases hs with
    | skip _ _ _ _ _ _ hplain => simp [hf] at hplain
    | outside _ _ _ _ _ _ h => omega
    | overlong _ _ _ _ _ _ _ h => exact Or.inl ⟨h, rfl⟩
    | last _ _ _ _ _ _ _ item rest v hdrop hitem hlast =>
      exact Or.inr ⟨item, rest, v, hdrop, hitem, Or.inl ⟨hlast, rfl⟩⟩
    | next _ _ _ _ _ _ _ _ item rest v hdrop hitem hnext h =>
      exact Or.inr ⟨item, rest, v, hdrop, hitem, Or.inr ⟨hnext, h⟩⟩
  · rintro (⟨h, rfl⟩ | ⟨item, rest, v, hdrop, hitem, ⟨hlast, rfl⟩ | ⟨hnext, h⟩⟩)
    · exact .overlong left f fields i pos hf hpos h
    · exact .last left f fields i pos hf hpos item rest v hdrop hitem hlast
    · exact .next left f fields i pos r hf hpos item rest v hdrop hitem hnext h

end KeyLoop

theorem ends_item {F : Type} [FieldAccess F] (data : Bytes) (field : F) (isUpdate : Bool)
    (g : PgValue × ℕ → Decoded (List PgValue × ℕ)) (r : Option ℕ) :
    Ends (parseValue data field isUpdate >>= g) r ↔
      (Overlong (FieldAccess.getKind field) data ∧ r = none) ∨
        ∃ item rest v, data = item ++ rest ∧ ItemOf isUpdate (FieldAccess.getKind field) item v ∧
          Ends (g (v, item.length)) r := by
  rw [ends_bind, parseValue_panics_iff]
  apply or_congr_right
  constructor
  · rintro ⟨⟨v, l⟩, hv, h⟩
    obtain ⟨item, rest, hdata, rfl, hitem⟩ := (parseValue_ok_iff _ _ _ _ _).mp hv
    exact ⟨item, rest, v, hdata, hitem, h⟩
  · rintro ⟨item, rest, v, hdata, hitem, h⟩
    exact ⟨(v, item.length), (parseValue_ok_iff _ _ _ _ _).mpr ⟨item, rest, hdata, rfl, hitem⟩, h⟩

theorem keyCols_scan (data : Bytes) (keys : List KeyField) (indexes : List ℕ) (total left : ℕ)
    (fields : List Field) (i k pos : ℕ) (cols : List PgValue)
    (h : InLoop keys indexes total fields i k) (r : Option ℕ) :
    Ends (keyCols data keys indexes total left i k pos cols) r ↔
      KeyScan data (indexes.length - 1) total left fields i pos r := by
  induction left generalizing fields i k pos cols with
  | zero => rw [keyScan_zero, keyCols, pure_ok, ends_ok]
  | succ left ih =>
    cases fields with
    | nil => exact absurd h not_inLoop_nil
    | cons f fields =>
      cases hf : f.isKey with
      | false =>
        obtain ⟨hloop, hstep⟩ := inLoop_plain h hf
        rw [keyScan_plain hf, hstep]
        exact ih fields (i+1) k (pos+1) cols hloop
      | true =>
        obtain ⟨hloop, hstep⟩ := inLoop_key h hf
        rw [hstep]
        by_cases hpos : pos ≤ data.length
        · rw [keyScan_read hf hpos, sliceFrom_ok data pos hpos, ok_bind, ends_item]
          apply or_congr_right
          constructor
          · rintro ⟨item, rest, v, hdrop, hitem, h⟩
            refine ⟨item, rest, v, hdrop, hitem, ?_⟩
            dsimp only at h
            split_ifs at h with hi
            · exact Or.inr ⟨hi, (ih fields (i+1) (k+1) _ _ (hloop hi)).mp h⟩
            · exact Or.inl ⟨by omega, (ends_ok _ _ r).mp h⟩
          · rintro ⟨item, rest, v, hdrop, hitem, h⟩
            refine ⟨item, rest, v, hdrop, hitem, ?_⟩
            dsimp only
            rcases h with ⟨hlast, rfl⟩ | ⟨hi, h⟩
            · rw [if_neg (by omega), ends_ok]
            · rw [if_pos hi]
              exact (ih fields (i+1) (k+1) _ _ (hloop hi)).mpr h
        · have hout : (sliceFrom data pos : Decoded Bytes) = panicked :=
            (sliceFrom_panics_iff data pos).mpr (by omega)
          rw [keyScan_outside hf (by omega), hout]
          exact ends_panicked r

theorem inLoop_start (fields : List Field) (hkeys : keyFields fields ≠ []) :
    InLoop (keyFields fields) (keyIndexes fields) fields.length fields 0 0 := by
  refine ⟨⟨rfl, rfl, Nat.zero_add _, Nat.le_refl 0⟩, ?_, Nat.zero_add _⟩
  intro hnone
  apply hkeys
  apply List.length_eq_zero_iff.mp
  rw [keyFields_length 0 fields, hnone, List.length_nil]

/-- How the key decoder ends behind its count. The unrolled loop needs a key
column; the general loop reads its items in the key columns only. -/
def KeysBody (fields : List Field) (count body : Bytes) (r : Option ℕ) : Prop :=
  BigEndian.ofBytes count ≤ fields.length ∧
    if 1 ≤ BigEndian.ofBytes count ∧ BigEndian.ofBytes count ≤ 6 then
      if keyFields fields = [] then r = none
      else KeyScan (count ++ body) ((keyFields fields).length - 1) fields.length
        (BigEndian.ofBytes count) fields 0 2 r
    else
      (Overruns false (BigEndian.ofBytes count) (keyFields fields) body ∧ r = none) ∨
        ∃ done todo items rest vals, keyFields fields = done ++ todo ∧
          done.length = BigEndian.ofBytes count ∧ body = items ++ rest ∧
          ItemsOf false done items vals ∧ r = some (2 + items.length)

def KeysEnd (fields : List Field) (data : Bytes) (r : Option ℕ) : Prop :=
  ∃ count body, data = count ++ body ∧ count.length = 2 ∧ KeysBody fields count body r

theorem keyCols_ends (data : Bytes) (fields : List Field) (left : ℕ) (hleft : 1 ≤ left)
    (r : Option ℕ) :
    Ends (keyCols data (keyFields fields) (keyIndexes fields) fields.length left 0 0 2 []) r ↔
      if keyFields fields = [] then r = none
      else KeyScan data ((keyFields fields).length - 1) fields.length left fields 0 2 r := by
  have hlen : (keyFields fields).length = (keyIndexes fields).length := keyFields_length 0 fields
  by_cases hnone : keyFields fields = []
  · have hindexes : keyIndexes fields = [] := by
      apply List.length_eq_zero_iff.mp
      rw [← hlen, hnone, List.length_nil]
    obtain ⟨left, rfl⟩ : ∃ n, left = n + 1 := ⟨left - 1, by omega⟩
    rw [if_pos hnone, hindexes, keyCols, index_panics [] 0 (Nat.le_refl 0)]
    exact ends_panicked r
  · rw [if_neg hnone, hlen]
    exact keyCols_scan data (keyFields fields) (keyIndexes fields) fields.length left fields 0 0 2 []
      (inLoop_start fields hnone) r

theorem anyCols_ends {F : Type} [FieldAccess F] (count body : Bytes) (fields : List F)
    (isUpdate : Bool) (left : ℕ) (hcount : count.length = 2) (r : Option ℕ) :
    Ends (anyCols (count ++ body) fields isUpdate left 0 2 []) r ↔
      (Overruns isUpdate left fields body ∧ r = none) ∨
        ∃ done todo items rest vals, fields = done ++ todo ∧ done.length = left ∧
          body = items ++ rest ∧ ItemsOf isUpdate done items vals ∧ r = some (2 + items.length) := by
  have hpos : 2 ≤ (count ++ body).length := by
    rw [List.length_append]
    omega
  have hdrop : (count ++ body).drop 2 = body := by rw [← hcount, List.drop_left]
  have hpanics := anyCols_panics_iff (count ++ body) fields isUpdate left 0 2 hpos []
  have hok := anyCols_ok_iff (count ++ body) fields isUpdate left 0 2 hpos []
  rw [hdrop, List.drop_zero] at hpanics
  simp only [hdrop, List.drop_zero, List.nil_append] at hok
  cases r with
  | none => simp [Ends, hpanics]
  | some n =>
    simp only [Ends, hok, reduceCtorEq, and_false, false_or, Option.some.injEq]
    constructor
    · rintro ⟨vals, done, todo, items, rest, new, hsplit, hdone, hbody, hitems, rfl, rfl⟩
      exact ⟨done, todo, items, rest, vals, hsplit, hdone, hbody, hitems, rfl⟩
    · rintro ⟨done, todo, items, rest, vals, hsplit, hdone, hbody, hitems, rfl⟩
      exact ⟨vals, done, todo, items, rest, vals, hsplit, hdone, hbody, hitems, rfl, rfl⟩

theorem parseKeys_ends (fields : List Field) (data : Bytes) (r : Option ℕ) :
    Ends (parseKeys data (keyFields fields) (keyIndexes fields) fields.length) r ↔
      KeysEnd fields data r := by
  by_cases hmin : data.length < 2
  · have hshort : parseKeys data (keyFields fields) (keyIndexes fields) fields.length =
        fail .truncatedInput := if_pos hmin
    rw [hshort]
    refine iff_of_false (ends_fail _ r) ?_
    rintro ⟨count, body, rfl, hcount, _⟩
    rw [List.length_append] at hmin
    omega
  obtain ⟨count, body, rfl, hcount⟩ := split_front 2 (by omega : 2 ≤ data.length)
  have hread := readU16_front count body hcount
  rw [KeysEnd, counted_iff count body hcount, KeysBody]
  simp only [parseKeys, hmin, if_false, hread, ok_bind]
  by_cases hfew : fields.length < BigEndian.ofBytes count
  · rw [if_pos hfew]
    exact iff_of_false (ends_fail _ r) (fun h => absurd h.1 (by omega))
  · rw [if_neg hfew]
    have hle : BigEndian.ofBytes count ≤ fields.length := by omega
    by_cases hsix : 1 ≤ BigEndian.ofBytes count ∧ BigEndian.ofBytes count ≤ 6
    · rw [if_pos hsix, if_pos hsix, keyCols_ends _ fields _ hsix.1]
      exact ⟨fun h => ⟨hle, h⟩, And.right⟩
    · rw [if_neg hsix, if_neg hsix, anyCols_ends count body _ false _ hcount]
      exact ⟨fun h => ⟨hle, h⟩, And.right⟩

end CDC.TuplePanics
