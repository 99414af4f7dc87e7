import CdcConnector.TupleGrammar

/-!
# Key tuples

A key tuple has one item for every column: the key columns carry a value, the
others are null. What the two key loops make of a well-formed key tuple, in
closed form: the unrolled loop keeps the keys up to the first one whose column
is not before the last key index, and the general loop wants every column to
be a key.
-/

set_option autoImplicit false

namespace CDC.KeyTuple
open CDC.Fallible CDC.Event CDC.Decoder CDC.RelationDecoder CDC.TupleDecoder CDC.TupleSyntax
open CDC.TupleGrammar

def KeyItem (field : Field) (item : Item) : Prop :=
  if field.isKey then item.present = true ∧ item.Fits field.kind else item = .null

/-- The values of the key columns, in column order. -/
def keyValues (fields : List Field) (items : List Item) : List PgValue :=
  ((fields.zip items).filter (fun p => p.1.isKey)).map (fun p => p.2.value)

def keyIndexesFrom (i : ℕ) (fields : List Field) : List ℕ :=
  (fields.zipIdx i).filterMap (fun (f, j) => if f.isKey then some j else none)

def allKeys (fields : List Field) : Bool := fields.all Field.isKey

/-- Every key column but the last is among the first columns, as many as
there are keys before the last. -/
def Leading (indexes : List ℕ) : Prop := ∀ i ∈ indexes.dropLast, i < indexes.length - 1

instance (indexes : List ℕ) : Decidable (Leading indexes) :=
  inferInstanceAs (Decidable (∀ i ∈ indexes.dropLast, i < indexes.length - 1))

theorem keyIndexesFrom_key (i : ℕ) (f : Field) (fields : List Field) (h : f.isKey = true) :
    keyIndexesFrom i (f::fields) = i :: keyIndexesFrom (i+1) fields := by
  simp [keyIndexesFrom, h]

theorem keyIndexesFrom_plain (i : ℕ) (f : Field) (fields : List Field) (h : f.isKey = false) :
    keyIndexesFrom i (f::fields) = keyIndexesFrom (i+1) fields := by
  simp [keyIndexesFrom, h]

theorem keyFields_append (xs ys : List Field) :
    keyFields (xs ++ ys) = keyFields xs ++ keyFields ys := by
  rw [keyFields, keyFields, keyFields, List.filterMap_append]

theorem keyFields_key (f : Field) (fields : List Field) (h : f.isKey = true) :
    keyFields (f::fields) = ⟨f.name, f.kind⟩ :: keyFields fields := by
  simp [keyFields, h]

theorem keyFields_plain (f : Field) (fields : List Field) (h : f.isKey = false) :
    keyFields (f::fields) = keyFields fields := by
  simp [keyFields, h]

theorem keyIndexesFrom_ge (i : ℕ) (fields : List Field) : ∀ j ∈ keyIndexesFrom i fields, i ≤ j := by
  induction fields generalizing i with
  | nil => simp [keyIndexesFrom]
  | cons f fields ih =>
    intro j hj
    cases hf : f.isKey with
    | true =>
      rw [keyIndexesFrom_key i f fields hf, List.mem_cons] at hj
      rcases hj with rfl | hj
      · exact le_rfl
      · exact (Nat.le_succ i).trans (ih (i+1) j hj)
    | false =>
      rw [keyIndexesFrom_plain i f fields hf] at hj
      exact (Nat.le_succ i).trans (ih (i+1) j hj)

theorem keyIndexesFrom_sorted (i : ℕ) (fields : List Field) :
    (keyIndexesFrom i fields).Pairwise (· < ·) := by
  induction fields generalizing i with
  | nil => exact List.Pairwise.nil
  | cons f fields ih =>
    cases hf : f.isKey with
    | true =>
      rw [keyIndexesFrom_key i f fields hf, List.pairwise_cons]
      exact ⟨fun j hj => keyIndexesFrom_ge (i+1) fields j hj, ih (i+1)⟩
    | false =>
      rw [keyIndexesFrom_plain i f fields hf]
      exact ih (i+1)

theorem keyNames_from (front fields : List Field) :
    (fields.filterMap (fun f => if f.isKey then some f.name else none)).map some =
      (keyIndexesFrom front.length fields).map (fun i => ((front ++ fields).map Field.name)[i]?) := by
  induction fields generalizing front with
  | nil => rfl
  | cons f fields ih =>
    have hnext := ih (front ++ [f])
    rw [List.append_assoc, List.singleton_append, List.length_append, List.length_singleton] at hnext
    cases hf : f.isKey with
    | true =>
      have hhead : ((front ++ f::fields).map Field.name)[front.length]? = some f.name := by simp
      rw [keyIndexesFrom_key front.length f fields hf, List.map_cons, ← hnext, hhead]
      simp [hf]
    | false =>
      rw [keyIndexesFrom_plain front.length f fields hf, ← hnext]
      simp [hf]

theorem keyFields_length (i : ℕ) (fields : List Field) :
    (keyFields fields).length = (keyIndexesFrom i fields).length := by
  induction fields generalizing i with
  | nil => rfl
  | cons f fields ih =>
    cases hf : f.isKey with
    | true =>
      rw [keyFields_key f fields hf, keyIndexesFrom_key i f fields hf, List.length_cons,
        List.length_cons, ih (i+1)]
    | false => rw [keyFields_plain f fields hf, keyIndexesFrom_plain i f fields hf, ih (i+1)]

theorem keyValues_length (fields : List Field) (items : List Item)
    (h : fields.length = items.length) :
    (keyValues fields items).length = (keyFields fields).length := by
  induction fields generalizing items with
  | nil => rfl
  | cons f fields ih =>
    cases items with
    | nil => simp at h
    | cons item items =>
      have ih := ih items (by simpa using h)
      cases hf : f.isKey with
      | true =>
        rw [keyFields_key f fields hf, List.length_cons, ← ih]
        simp [keyValues, hf]
      | false =>
        rw [keyFields_plain f fields hf, ← ih]
        simp [keyValues, hf]

def keyPart {α : Type} (fields : List Field) (row : List α) : List α :=
  ((fields.zip row).filter (fun p => p.1.isKey)).map Prod.snd

section KeyPart
variable {α : Type}

theorem keyPart_key (f : Field) (fields : List Field) (v : α) (row : List α) (h : f.isKey = true) :
    keyPart (f::fields) (v::row) = v :: keyPart fields row := by
  simp [keyPart, h]

theorem keyPart_plain (f : Field) (fields : List Field) (v : α) (row : List α)
    (h : f.isKey = false) : keyPart (f::fields) (v::row) = keyPart fields row := by
  simp [keyPart, h]

theorem keyPart_get (full : List α) (i : ℕ) (fields : List Field)
    (hlen : full.length = i + fields.length) (j : ℕ) :
    (keyPart fields (full.drop i))[j]? = (keyIndexesFrom i fields)[j]?.bind (full[·]?) := by
  induction fields generalizing i j with
  | nil => simp [keyPart, keyIndexesFrom]
  | cons f fields ih =>
    rw [List.length_cons] at hlen
    have hi : i < full.length := by omega
    have ih := ih (i+1) (by omega)
    rw [List.drop_eq_getElem_cons hi]
    cases hf : f.isKey with
    | true =>
      rw [keyPart_key f fields _ _ hf, keyIndexesFrom_key i f fields hf]
      cases j with
      | zero => simp [hi]
      | succ j => exact ih j
    | false =>
      rw [keyPart_plain f fields _ _ hf, keyIndexesFrom_plain i f fields hf]
      exact ih j

theorem keyPart_length (fields : List Field) (row : List α) (i : ℕ)
    (hlen : row.length = fields.length) :
    (keyPart fields row).length = (keyIndexesFrom i fields).length := by
  induction fields generalizing i row with
  | nil => rfl
  | cons f fields ih =>
    cases row with
    | nil => simp at hlen
    | cons v row =>
      have ih := ih row (i+1) (by simpa using hlen)
      cases hf : f.isKey with
      | true =>
        rw [keyPart_key f fields v row hf, keyIndexesFrom_key i f fields hf, List.length_cons,
          List.length_cons, ih]
      | false => rw [keyPart_plain f fields v row hf, keyIndexesFrom_plain i f fields hf, ih]

theorem keyFields_eq (fields : List Field) :
    keyFields fields = (keyPart fields fields).map (fun f => ⟨f.name, f.kind⟩) := by
  induction fields with
  | nil => rfl
  | cons f fields ih =>
    cases hf : f.isKey with
    | true => rw [keyFields_key f fields hf, keyPart_key f fields f fields hf, ih, List.map_cons]
    | false => rw [keyFields_plain f fields hf, keyPart_plain f fields f fields hf, ih]

end KeyPart

theorem plain_bytes (i : ℕ) (fields : List Field) (items : List Item)
    (hitems : List.Forall₂ KeyItem fields items) (h : keyIndexesFrom i fields = []) :
    (items.flatMap Item.bytes).length = fields.length := by
  induction hitems generalizing i with
  | nil => rfl
  | @cons f item fields items hfirst _ ih =>
    cases hf : f.isKey with
    | true =>
      rw [keyIndexesFrom_key i f fields hf] at h
      cases h
    | false =>
      rw [keyIndexesFrom_plain i f fields hf] at h
      have hnull : item = .null := by simpa [KeyItem, hf] using hfirst
      simp [hnull, Item.bytes, ih (i+1) h]

theorem keyCols_key (keys : List KeyField) (indexes : List ℕ) (total left i k : ℕ)
    (pre rest : Bytes) (cols : List PgValue) (field : KeyField) (item : Item)
    (hnext : (index indexes k : Decoded ℕ) = .ok i)
    (hkey : (index keys k : Decoded KeyField) = .ok field)
    (hpresent : item.present = true) (hfits : item.Fits field.kind)
    (hsome : 1 ≤ indexes.length) (hi : i ≤ total) :
    keyCols (pre ++ (item.bytes ++ rest)) keys indexes total (left+1) i k pre.length cols =
      if i < indexes.length - 1 then
        keyCols (pre ++ (item.bytes ++ rest)) keys indexes total left (i+1) (k+1)
          (pre ++ item.bytes).length (cols ++ [item.value])
      else .ok (cols ++ [item.value], pre.length + item.bytes.length + total - i) := by
  have htail : (sliceFrom (pre ++ (item.bytes ++ rest)) pre.length : Decoded Bytes) =
      .ok (item.bytes ++ rest) := sliceFrom_append _ _
  have hvalue := parseValue_item field false item rest hfits
    (fun h => by rw [h] at hpresent; cases hpresent)
  have hlast := subtract_ok (ε := DecoderError) indexes.length 1 hsome
  have hsize := subtract_ok (ε := DecoderError) (pre.length + item.bytes.length + total) i
    (by omega)
  simp only [keyCols, hnext, hkey, htail, hvalue, hlast, hsize, ok_bind, pure_ok, if_true,
    List.length_append]

theorem keyCols_plain (keys : List KeyField) (indexes : List ℕ) (total left i k next pos : ℕ)
    (data : Bytes) (cols : List PgValue) (hnext : (index indexes k : Decoded ℕ) = .ok next)
    (hne : i ≠ next) :
    keyCols data keys indexes total (left+1) i k pos cols =
      keyCols data keys indexes total left (i+1) k (pos+1) cols := by
  simp only [keyCols, hnext, ok_bind, hne, if_false]

structure KeysFrom (keys : List KeyField) (indexes : List ℕ) (fields : List Field) (i k : ℕ) :
    Prop where
  indexes_left : indexes.drop k = keyIndexesFrom i fields
  keys_left : keys.drop k = keyFields fields
  count : k + (keyIndexesFrom i fields).length = indexes.length
  behind : k ≤ i

section Loop
variable {keys : List KeyField} {indexes : List ℕ} {f : Field} {fields : List Field} {i k : ℕ}

theorem keysFrom_key (h : KeysFrom keys indexes (f::fields) i k) (hf : f.isKey = true) :
    (index indexes k : Decoded ℕ) = .ok i ∧
      (index keys k : Decoded KeyField) = .ok ⟨f.name, f.kind⟩ ∧
      k < indexes.length ∧ KeysFrom keys indexes fields (i+1) (k+1) := by
  have hindexes := h.indexes_left
  have hkeys := h.keys_left
  have hcount := h.count
  have hbehind := h.behind
  rw [keyIndexesFrom_key i f fields hf] at hindexes hcount
  rw [keyFields_key f fields hf] at hkeys
  rw [List.length_cons] at hcount
  obtain ⟨hnext, hindexes⟩ := drop_cons_index hindexes
  obtain ⟨hkey, hkeys⟩ := drop_cons_index hkeys
  exact ⟨hnext, hkey, by omega, hindexes, hkeys, by omega, by omega⟩

theorem keysFrom_plain (h : KeysFrom keys indexes (f::fields) i k) (hf : f.isKey = false) :
    KeysFrom keys indexes fields (i+1) k := by
  have hindexes := h.indexes_left
  have hkeys := h.keys_left
  have hcount := h.count
  rw [keyIndexesFrom_plain i f fields hf] at hindexes hcount
  rw [keyFields_plain f fields hf] at hkeys
  exact ⟨hindexes, hkeys, hcount, Nat.le_succ_of_le h.behind⟩

/-- What the unrolled key loop makes of the columns from `i` on. It returns at
the first key whose column is not before the last key index; when that is the
last key, the size is one too large. -/
def ReadsKeys (keys : List KeyField) (indexes : List ℕ) (total : ℕ) (rest : Bytes)
    (fields : List Field) (items : List Item) (i k : ℕ) (pre : Bytes) (cols : List PgValue) :
    Prop :=
  ∃ size, keyCols (pre ++ (items.flatMap Item.bytes ++ rest)) keys indexes total fields.length i k
      pre.length cols =
    .ok (cols ++ (keyValues fields items).take
      (((keyIndexesFrom i fields).takeWhile (· < indexes.length - 1)).length + 1), size) ∧
    (indexes.length - 1 ≤
        k + ((keyIndexesFrom i fields).takeWhile (· < indexes.length - 1)).length →
      size = pre.length + (items.flatMap Item.bytes).length + 1)

variable {total : ℕ} {rest pre : Bytes} {item : Item} {items : List Item} {cols : List PgValue}

theorem readsKeys_key (h : KeysFrom keys indexes (f::fields) i k) (hf : f.isKey = true)
    (hpresent : item.present = true) (hfits : item.Fits f.kind)
    (hrest : List.Forall₂ KeyItem fields items) (htotal : i + (fields.length + 1) = total)
    (ih : KeysFrom keys indexes fields (i+1) (k+1) → keyIndexesFrom (i+1) fields ≠ [] →
      ReadsKeys keys indexes total rest fields items (i+1) (k+1) (pre ++ item.bytes)
        (cols ++ [item.value])) :
    ReadsKeys keys indexes total rest (f::fields) (item::items) i k pre cols := by
  obtain ⟨hnext, hkey, hlt, hfrom⟩ := keysFrom_key h hf
  have hcount := hfrom.count
  have hbehind := h.behind
  have hvalues : keyValues (f::fields) (item::items) = item.value :: keyValues fields items := by
    simp [keyValues, hf]
  unfold ReadsKeys
  rw [keyIndexesFrom_key i f fields hf, List.flatMap_cons, List.append_assoc, List.length_cons,
    keyCols_key keys indexes total fields.length i k pre _ cols ⟨f.name, f.kind⟩ item hnext hkey
      hpresent hfits (by omega) (by omega), hvalues]
  by_cases hi : i < indexes.length - 1
  · have hsome : keyIndexesFrom (i+1) fields ≠ [] := by
      intro hnone
      rw [hnone, List.length_nil] at hcount
      omega
    obtain ⟨size, heq, hsize⟩ := ih hfrom hsome
    rw [List.append_assoc] at heq
    rw [if_pos hi, List.takeWhile_cons_of_pos (by simpa using hi), List.length_cons,
      List.take_succ_cons]
    refine ⟨size, by rw [heq, List.append_assoc, List.singleton_append], fun h => ?_⟩
    rw [hsize (by omega), List.length_append, List.length_append]
    omega
  · rw [if_neg hi, List.takeWhile_cons_of_neg (by simpa using hi), List.length_nil]
    refine ⟨pre.length + item.bytes.length + total - i, rfl, fun h => ?_⟩
    have hnone : keyIndexesFrom (i+1) fields = [] := by
      apply List.eq_nil_of_length_eq_zero
      omega
    rw [List.length_append, plain_bytes (i+1) fields items hrest hnone]
    omega

theorem readsKeys_plain (h : KeysFrom keys indexes (f::fields) i k) (hf : f.isKey = false)
    (hnull : item = .null) (hsome : keyIndexesFrom (i+1) fields ≠ [])
    (ih : KeysFrom keys indexes fields (i+1) k →
      ReadsKeys keys indexes total rest fields items (i+1) k (pre ++ item.bytes) cols) :
    ReadsKeys keys indexes total rest (f::fields) (item::items) i k pre cols := by
  have hfrom := keysFrom_plain h hf
  have hvalues : keyValues (f::fields) (item::items) = keyValues fields items := by
    simp [keyValues, hf]
  obtain ⟨next, tail, hnt⟩ := List.exists_cons_of_ne_nil hsome
  have hge : i + 1 ≤ next := keyIndexesFrom_ge (i+1) fields next (by rw [hnt]; simp)
  have hnext := (drop_cons_index (hfrom.indexes_left.trans hnt)).1
  obtain ⟨size, heq, hsize⟩ := ih hfrom
  have hlen : item.bytes.length = 1 := by rw [hnull]; rfl
  rw [List.append_assoc, List.length_append, hlen] at heq
  rw [List.length_append, hlen] at hsize
  unfold ReadsKeys
  rw [keyIndexesFrom_plain i f fields hf, List.flatMap_cons, List.append_assoc, List.length_cons,
    keyCols_plain keys indexes total fields.length i k next _ _ cols hnext (by omega), hvalues]
  refine ⟨size, heq, fun h => ?_⟩
  rw [hsize h, List.length_append, hlen]
  omega

theorem keyCols_reads (hitems : List.Forall₂ KeyItem fields items)
    (h : KeysFrom keys indexes fields i k) (hsome : keyIndexesFrom i fields ≠ [])
    (htotal : i + fields.length = total) :
    ReadsKeys keys indexes total rest fields items i k pre cols := by
  induction hitems generalizing i k pre cols with
  | nil => exact absurd rfl hsome
  | @cons f item fields items hfirst hrest ih =>
    rw [List.length_cons] at htotal
    cases hf : f.isKey with
    | true =>
      obtain ⟨hpresent, hfits⟩ : item.present = true ∧ item.Fits f.kind := by
        simpa [KeyItem, hf] using hfirst
      apply readsKeys_key h hf hpresent hfits hrest htotal
      exact fun hfrom hsome => ih hfrom hsome (by omega)
    | false =>
      have hnull : item = .null := by simpa [KeyItem, hf] using hfirst
      rw [keyIndexesFrom_plain i f fields hf] at hsome
      apply readsKeys_plain h hf hnull hsome
      exact fun hfrom => ih hfrom hsome (by omega)

end Loop

theorem anyCols_short {F : Type} [FieldAccess F] (data : Bytes) (fields : List F) (isUpdate : Bool)
    (left i pos : ℕ) (cols : List PgValue) (h : fields.length < i + left) (hi : i ≤ fields.length)
    (r : List PgValue × ℕ) : anyCols data fields isUpdate left i pos cols ≠ .ok r := by
  induction left generalizing i pos cols with
  | zero => omega
  | succ left ih =>
    intro hok
    simp only [anyCols, bind_ok_iff] at hok
    obtain ⟨_, _, field, hfield, ⟨value, len⟩, _, hrec⟩ := hok
    have hin : i < fields.length := by
      by_contra hout
      rw [index_panics fields i (by omega)] at hfield
      cases hfield
    exact ih (i+1) (pos + len) (cols ++ [value]) (by omega) (by omega) hrec

theorem keyFields_some (fields : List Field) (h : allKeys fields = false) :
    (keyFields fields).length < fields.length := by
  induction fields with
  | nil => cases h
  | cons f fields ih =>
    have hle : (keyFields fields).length ≤ fields.length := List.length_filterMap_le _ _
    cases hf : f.isKey with
    | true =>
      have hrest : allKeys fields = false := by simpa [allKeys, hf] using h
      rw [keyFields_key f fields hf, List.length_cons, List.length_cons]
      exact Nat.succ_lt_succ (ih hrest)
    | false =>
      rw [keyFields_plain f fields hf, List.length_cons]
      omega

theorem keyValues_all (fields : List Field) (items : List Item) (h : allKeys fields = true)
    (hlen : fields.length = items.length) : keyValues fields items = items.map Item.value := by
  induction fields generalizing items with
  | nil =>
    rw [List.eq_nil_of_length_eq_zero hlen.symm]
    rfl
  | cons f fields ih =>
    cases items with
    | nil => simp at hlen
    | cons item items =>
      simp only [allKeys, List.all_cons, Bool.and_eq_true] at h
      have ih := ih items h.2 (by simpa using hlen)
      simp only [keyValues] at ih
      simp [keyValues, h.1, ih]

theorem keyItems_written (fields : List Field) (items : List Item)
    (hitems : List.Forall₂ KeyItem fields items) (h : allKeys fields = true) :
    List.Forall₂ (Written false) (keyFields fields) items := by
  induction hitems with
  | nil => exact List.Forall₂.nil
  | @cons f item fields items hfirst _ ih =>
    simp only [allKeys, List.all_cons, Bool.and_eq_true] at h
    obtain ⟨hpresent, hfits⟩ : item.present = true ∧ item.Fits f.kind := by
      simpa [KeyItem, h.1] using hfirst
    rw [keyFields_key f fields h.1]
    exact List.Forall₂.cons ⟨hfits, fun he => by rw [he] at hpresent; cases hpresent⟩ (ih h.2)

section Tuple
variable (fields : List Field) (items : List Item) (rest : Bytes)
  (hlt : fields.length < 2^16) (hitems : List.Forall₂ KeyItem fields items)
include hlt hitems

theorem parseKeys_loops :
    parseKeys (tupleBytes items ++ rest) (keyFields fields) (keyIndexes fields) fields.length =
      if 1 ≤ fields.length ∧ fields.length ≤ 6 then
        keyCols (tupleBytes items ++ rest) (keyFields fields) (keyIndexes fields) fields.length
          fields.length 0 0 2 []
      else anyCols (tupleBytes items ++ rest) (keyFields fields) false fields.length 0 2 [] := by
  have hlen : items.length = fields.length := hitems.length_eq.symm
  have hcount := readU16_tuple items rest (hlen ▸ hlt)
  have hmin : ¬ (tupleBytes items ++ rest).length < 2 := by
    rw [List.length_append, tupleBytes_length]
    omega
  simp only [parseKeys, hmin, if_false, hcount, ok_bind, hlen, lt_irrefl, gt_iff_lt]

theorem parseKeys_few (hfew : 1 ≤ fields.length ∧ fields.length ≤ 6)
    (hsome : keyIndexes fields ≠ []) :
    ∃ size, parseKeys (tupleBytes items ++ rest) (keyFields fields) (keyIndexes fields)
        fields.length =
      .ok ((keyValues fields items).take (((keyIndexes fields).takeWhile
        (· < (keyIndexes fields).length - 1)).length + 1), size) ∧
      ((keyIndexes fields).length - 1 ≤
          ((keyIndexes fields).takeWhile (· < (keyIndexes fields).length - 1)).length →
        size = (tupleBytes items).length + 1) := by
  have hfrom : KeysFrom (keyFields fields) (keyIndexes fields) fields 0 0 :=
    ⟨rfl, rfl, Nat.zero_add _, le_refl 0⟩
  have hreads : ReadsKeys (keyFields fields) (keyIndexes fields) fields.length rest fields items 0 0
      (BigEndian.toBytes 2 items.length) [] := keyCols_reads hitems hfrom hsome (Nat.zero_add _)
  obtain ⟨size, heq, hsize⟩ := hreads
  rw [BigEndian.toBytes_length, List.nil_append] at heq
  rw [BigEndian.toBytes_length] at hsize
  rw [parseKeys_loops fields items rest hlt hitems, if_pos hfew, tupleBytes_length, tupleBytes,
    List.append_assoc]
  exact ⟨size, heq, fun h => hsize (by rw [Nat.zero_add]; exact h)⟩

theorem parseKeys_all (hmany : ¬ (1 ≤ fields.length ∧ fields.length ≤ 6))
    (hall : allKeys fields = true) :
    parseKeys (tupleBytes items ++ rest) (keyFields fields) (keyIndexes fields) fields.length =
      .ok (keyValues fields items, (tupleBytes items).length) := by
  have hlen : items.length = fields.length := hitems.length_eq.symm
  have hr := anyCols_reads (keyFields fields) false rest (keyFields fields) items
    (keyItems_written fields items hitems hall) 0 rfl (BigEndian.toBytes 2 items.length) []
  rw [BigEndian.toBytes_length, List.nil_append, ← keyValues_all fields items hall hlen.symm] at hr
  rw [parseKeys_loops fields items rest hlt hitems, if_neg hmany, tupleBytes_length, tupleBytes,
    List.append_assoc, ← hlen]
  exact hr

theorem parseKeys_mixed (hmany : ¬ (1 ≤ fields.length ∧ fields.length ≤ 6))
    (hmixed : allKeys fields = false) (r : List PgValue × ℕ) :
    parseKeys (tupleBytes items ++ rest) (keyFields fields) (keyIndexes fields) fields.length ≠
      .ok r := by
  rw [parseKeys_loops fields items rest hlt hitems, if_neg hmany]
  refine anyCols_short _ _ _ _ _ _ _ ?_ (Nat.zero_le _) r
  rw [Nat.zero_add]
  exact keyFields_some fields hmixed

end Tuple

end CDC.KeyTuple
