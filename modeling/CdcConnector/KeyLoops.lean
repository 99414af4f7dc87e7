import CdcConnector.RelationMessage
import CdcConnector.RefusedItems
import CdcConnector.TuplePanics

/-!
# The two loops of the key decoder

From seven counted columns on, the key decoder reads one item behind another
for the key columns, as the row decoder does, where the unrolled loop skips a
byte for every other column. What either loop fails with, and where the two
agree.
-/

set_option autoImplicit false

namespace CDC.KeyLoops
open CDC.Fallible CDC.Event CDC.Decoder CDC.RelationDecoder CDC.TupleDecoder CDC.TupleSyntax
open CDC.KeyTuple CDC.TuplePanics CDC.RelationMessage CDC.RefusedItems

/-- A column that is read, by its kind; `none` for one that is passed over. -/
def column (f : Field) : Option FieldKind := if f.isKey then some f.kind else none

def keyColumn (f : KeyField) : Option FieldKind := some f.kind

/-- What stands between two offsets of the input: an item for a column that is
read, one byte for one that is passed over. -/
inductive Stands (data : Bytes) : List (Option FieldKind) → ℕ → ℕ → Prop where
  | none (start : ℕ) : Stands data [] start start
  | passed (cols : List (Option FieldKind)) (start stop : ℕ) (h : Stands data cols (start+1) stop) :
      Stands data (Option.none :: cols) start stop
  | item (kind : FieldKind) (cols : List (Option FieldKind)) (start stop : ℕ) (item rest : Bytes)
      (v : PgValue) (hdrop : data.drop start = item ++ rest) (hitem : ItemOf false kind item v)
      (h : Stands data cols (start + item.length) stop) : Stands data (some kind :: cols) start stop

/-- Why a column is not read at an offset: there is no such column, the offset
is outside the input, or no item starts there. -/
inductive Unread (data : Bytes) : Option (Option FieldKind) → ℕ → Fault DecoderError → Prop where
  | missing (pos : ℕ) : Unread data none pos .panic
  | outside (kind : FieldKind) (pos : ℕ) (h : data.length < pos) :
      Unread data (some (some kind)) pos .panic
  | refused (kind : FieldKind) (pos : ℕ) (x : Fault DecoderError) (hpos : pos ≤ data.length)
      (h : Refused kind (data.drop pos) x) : Unread data (some (some kind)) pos x

/-- The first `i` columns stand in the input from `start` on, the next one is
not read behind them. -/
def RefusedAt (data : Bytes) (cols : List (Option FieldKind)) (start i : ℕ)
    (x : Fault DecoderError) : Prop :=
  i ≤ cols.length ∧ ∃ stop, Stands data (cols.take i) start stop ∧ Unread data cols[i]? stop x

section RefusedAt
variable {data : Bytes} {kind : FieldKind} {cols : List (Option FieldKind)} {start i : ℕ}
  {x : Fault DecoderError}

theorem refusedAt_nil : RefusedAt data [] start i x ↔ i = 0 ∧ x = .panic := by
  constructor
  · rintro ⟨hi, stop, _, h⟩
    cases h
    exact ⟨Nat.le_zero.mp hi, rfl⟩
  · rintro ⟨rfl, rfl⟩
    exact ⟨le_rfl, start, .none start, .missing start⟩

theorem refusedAt_first :
    RefusedAt data (some kind :: cols) start 0 x ↔ Unread data (some (some kind)) start x := by
  constructor
  · rintro ⟨_, stop, hstands, h⟩
    cases hstands
    exact h
  · exact fun h => ⟨Nat.zero_le _, start, .none start, h⟩

theorem refusedAt_item :
    RefusedAt data (some kind :: cols) start (i+1) x ↔
      ∃ item rest v, data.drop start = item ++ rest ∧ ItemOf false kind item v ∧
        RefusedAt data cols (start + item.length) i x := by
  constructor
  · rintro ⟨hi, stop, hstands, h⟩
    cases hstands with
    | item _ _ _ _ item rest v hdrop hitem hstands =>
      exact ⟨item, rest, v, hdrop, hitem, Nat.le_of_succ_le_succ hi, stop, hstands, h⟩
  · rintro ⟨item, rest, v, hdrop, hitem, hi, stop, hstands, h⟩
    exact ⟨Nat.succ_le_succ hi, stop, .item kind _ start stop item rest v hdrop hitem hstands, h⟩

theorem refusedAt_passed :
    RefusedAt data (none :: cols) start (i+1) x ↔ RefusedAt data cols (start+1) i x := by
  constructor
  · rintro ⟨hi, stop, hstands, h⟩
    cases hstands with
    | passed _ _ _ hstands => exact ⟨Nat.le_of_succ_le_succ hi, stop, hstands, h⟩
  · rintro ⟨hi, stop, hstands, h⟩
    exact ⟨Nat.succ_le_succ hi, stop, .passed _ start stop hstands, h⟩

theorem not_refusedAt_passed : ¬ RefusedAt data (none :: cols) start 0 x := by
  rintro ⟨_, stop, _, h⟩
  cases h

theorem refusedAt_take {cols' : List (Option FieldKind)} (hi : i < cols.length)
    (h : cols.take (i+1) = cols'.take (i+1)) (hr : RefusedAt data cols start i x) :
    RefusedAt data cols' start i x := by
  have hlen := congrArg List.length h
  rw [List.length_take_of_le (Nat.succ_le_of_lt hi), List.length_take] at hlen
  have hfirst : cols.take i = cols'.take i := by
    have htake := congrArg (List.take i) h
    rwa [List.take_take, List.take_take, Nat.min_eq_left (Nat.le_succ i)] at htake
  have hnext : cols[i]? = cols'[i]? := by
    have hget := congrArg (fun l => l[i]?) h
    simpa only [List.getElem?_take_of_lt (Nat.lt_succ_self i)] using hget
  obtain ⟨_, stop, hstands, hunread⟩ := hr
  rw [hfirst] at hstands
  rw [hnext] at hunread
  exact ⟨by omega, stop, hstands, hunread⟩

theorem fails_item (field : KeyField) (hpos : start ≤ data.length)
    (g : PgValue × ℕ → Decoded (List PgValue × ℕ)) :
    (parseValue (data.drop start) field false >>= g) = .error x ↔
      Unread data (some (keyColumn field)) start x ∨ ∃ item rest v,
        data.drop start = item ++ rest ∧ ItemOf false field.kind item v ∧
          g (v, item.length) = .error x := by
  rw [bind_error_iff, parseValue_error_iff]
  apply or_congr
  · constructor
    · exact .refused field.kind start x hpos
    · intro h
      cases h with
      | outside _ _ h => omega
      | refused _ _ _ _ h => exact h
  · constructor
    · rintro ⟨⟨v, l⟩, hv, h⟩
      obtain ⟨item, rest, hinput, rfl, hitem⟩ := (parseValue_ok_iff _ _ _ _ _).mp hv
      exact ⟨item, rest, v, hinput, hitem, h⟩
    · rintro ⟨item, rest, v, hinput, hitem, h⟩
      exact ⟨(v, item.length), (parseValue_ok_iff _ _ _ _ _).mpr ⟨item, rest, hinput, rfl, hitem⟩, h⟩

end RefusedAt

/-- The general loop reads one item behind another for the keys. -/
theorem anyCols_error_iff (data : Bytes) (keys : List KeyField) (left i pos : ℕ)
    (hpos : pos ≤ data.length) (cols : List PgValue) (x : Fault DecoderError) :
    anyCols data keys false left i pos cols = .error x ↔
      ∃ j < left, RefusedAt data ((keys.drop i).map keyColumn) pos j x := by
  induction left generalizing i pos cols with
  | zero => exact iff_of_false (by simp [anyCols]) (by simp)
  | succ left ih =>
    simp only [anyCols, sliceFrom_ok _ _ hpos, ok_bind]
    by_cases hi : i < keys.length
    · rw [List.drop_eq_getElem_cons hi, List.map_cons, index_ok keys i hi, ok_bind, fails_item _ hpos]
      constructor
      · rintro (h | ⟨item, rest, v, hdrop, hitem, h⟩)
        · exact ⟨0, Nat.succ_pos left, refusedAt_first.mpr h⟩
        · obtain ⟨hnext, _⟩ := drop_item hpos hdrop
          obtain ⟨j, hj, hrest⟩ := (ih (i+1) _ hnext _).mp h
          exact ⟨j+1, by omega, refusedAt_item.mpr ⟨item, rest, v, hdrop, hitem, hrest⟩⟩
      · rintro ⟨j, hj, h⟩
        cases j with
        | zero => exact Or.inl (refusedAt_first.mp h)
        | succ j =>
          obtain ⟨item, rest, v, hdrop, hitem, hrest⟩ := refusedAt_item.mp h
          obtain ⟨hnext, _⟩ := drop_item hpos hdrop
          exact Or.inr ⟨item, rest, v, hdrop, hitem,
            (ih (i+1) _ hnext _).mpr ⟨j, by omega, hrest⟩⟩
    · have hnil : keys.drop i = [] := List.drop_eq_nil_of_le (by omega)
      rw [hnil, index_panics keys i (by omega)]
      constructor
      · intro h
        cases h
        exact ⟨0, Nat.succ_pos left, refusedAt_nil.mpr ⟨rfl, rfl⟩⟩
      · rintro ⟨j, _, h⟩
        rw [(refusedAt_nil.mp h).2]
        rfl

/-- No key column before column `j` is one the unrolled loop ends at, where
the first column has number `i`. -/
def GoesOn (lastKey i : ℕ) (fields : List Field) (j : ℕ) : Prop :=
  ∀ c f, c < j → fields[c]? = some f → f.isKey = true → i + c < lastKey

theorem goesOn_cons {lastKey i j : ℕ} {f : Field} {fields : List Field} :
    GoesOn lastKey i (f::fields) (j+1) ↔
      (f.isKey = true → i < lastKey) ∧ GoesOn lastKey (i+1) fields j := by
  constructor
  · intro h
    refine ⟨fun hf => h 0 f (Nat.succ_pos j) rfl hf, ?_⟩
    intro c g hc hg hkey
    have hlt := h (c+1) g (Nat.succ_lt_succ hc) hg hkey
    omega
  · rintro ⟨hfirst, hrest⟩ c g hc hg hkey
    cases c with
    | zero =>
      cases hg
      exact hfirst hkey
    | succ c =>
      have hlt := hrest c g (Nat.lt_of_succ_lt_succ hc) hg hkey
      omega

/-- The unrolled loop passes over a byte for every column that is no key, and
returns at the last key. -/
theorem keyCols_error_iff (data : Bytes) (keys : List KeyField) (indexes : List ℕ)
    (total left : ℕ) (fields : List Field) (i k pos : ℕ) (cols : List PgValue)
    (h : InLoop keys indexes total fields i k) (x : Fault DecoderError) :
    keyCols data keys indexes total left i k pos cols = .error x ↔
      ∃ j < left, GoesOn (indexes.length - 1) i fields j ∧
        RefusedAt data (fields.map column) pos j x := by
  induction left generalizing fields i k pos cols with
  | zero => exact iff_of_false (by simp [keyCols]) (by simp)
  | succ left ih =>
    cases fields with
    | nil => exact absurd h not_inLoop_nil
    | cons f fields =>
      cases hf : f.isKey with
      | false =>
        obtain ⟨hloop, hstep⟩ := inLoop_plain h hf
        have hcol : column f = none := by simp [column, hf]
        rw [hstep, ih fields (i+1) k (pos+1) cols hloop, List.map_cons, hcol]
        constructor
        · rintro ⟨j, hj, hgoes, hr⟩
          refine ⟨j+1, by omega, goesOn_cons.mpr ⟨?_, hgoes⟩, refusedAt_passed.mpr hr⟩
          intro hkey
          rw [hf] at hkey
          cases hkey
        · rintro ⟨j, hj, hgoes, hr⟩
          cases j with
          | zero => exact absurd hr not_refusedAt_passed
          | succ j => exact ⟨j, by omega, (goesOn_cons.mp hgoes).2, refusedAt_passed.mp hr⟩
      | true =>
        obtain ⟨hloop, hstep⟩ := inLoop_key h hf
        have hcol : column f = keyColumn ⟨f.name, f.kind⟩ := by simp [column, keyColumn, hf]
        rw [hstep, List.map_cons, hcol]
        by_cases hpos : pos ≤ data.length
        · rw [sliceFrom_ok data pos hpos, ok_bind, fails_item _ hpos]
          constructor
          · rintro (hr | ⟨item, rest, v, hdrop, hitem, hr⟩)
            · refine ⟨0, Nat.succ_pos left, ?_, refusedAt_first.mpr hr⟩
              intro c g hc
              omega
            · dsimp only at hr
              split_ifs at hr with hi
              obtain ⟨j, hj, hgoes, hrest⟩ := (ih fields (i+1) (k+1) _ _ (hloop hi)).mp hr
              exact ⟨j+1, by omega, goesOn_cons.mpr ⟨fun _ => hi, hgoes⟩,
                refusedAt_item.mpr ⟨item, rest, v, hdrop, hitem, hrest⟩⟩
          · rintro ⟨j, hj, hgoes, hr⟩
            cases j with
            | zero => exact Or.inl (refusedAt_first.mp hr)
            | succ j =>
              obtain ⟨item, rest, v, hdrop, hitem, hrest⟩ := refusedAt_item.mp hr
              obtain ⟨hfirst, hgoes⟩ := goesOn_cons.mp hgoes
              refine Or.inr ⟨item, rest, v, hdrop, hitem, ?_⟩
              dsimp only
              rw [if_pos (hfirst hf)]
              exact (ih fields (i+1) (k+1) _ _ (hloop (hfirst hf))).mpr ⟨j, by omega, hgoes, hrest⟩
        · have hout : (sliceFrom data pos : Decoded Bytes) = panicked :=
            (sliceFrom_panics_iff data pos).mpr (by omega)
          rw [hout]
          constructor
          · intro hx
            cases hx
            refine ⟨0, Nat.succ_pos left, ?_, refusedAt_first.mpr (.outside _ pos (by omega))⟩
            intro c g hc
            omega
          · rintro ⟨j, hj, _, hr⟩
            cases j with
            | zero =>
              cases refusedAt_first.mp hr with
              | outside => rfl
              | refused _ _ _ hin => omega
            | succ j =>
              obtain ⟨item, rest, v, hdrop, hitem, _⟩ := refusedAt_item.mp hr
              have hnil : data.drop pos = [] := List.drop_eq_nil_of_le (by omega)
              rw [hnil] at hdrop
              obtain ⟨rfl, _⟩ := List.append_eq_nil_iff.mp hdrop.symm
              cases hitem

theorem keyCols_values_le (data : Bytes) (keys : List KeyField) (indexes : List ℕ)
    (total left : ℕ) (fields : List Field) (i k pos : ℕ) (cols vals : List PgValue) (n : ℕ)
    (h : InLoop keys indexes total fields i k)
    (hok : keyCols data keys indexes total left i k pos cols = .ok (vals, n)) :
    vals.length ≤ cols.length + (keyFields (fields.take left)).length := by
  induction left generalizing fields i k pos cols with
  | zero =>
    simp only [keyCols, pure_ok, Except.ok.injEq, Prod.mk.injEq] at hok
    rw [hok.1]
    omega
  | succ left ih =>
    cases fields with
    | nil => exact absurd h not_inLoop_nil
    | cons f fields =>
      rw [List.take_succ_cons]
      cases hf : f.isKey with
      | false =>
        obtain ⟨hloop, hstep⟩ := inLoop_plain h hf
        rw [hstep] at hok
        rw [keyFields_plain f _ hf]
        exact ih fields (i+1) k (pos+1) cols hloop hok
      | true =>
        obtain ⟨hloop, hstep⟩ := inLoop_key h hf
        rw [hstep, bind_ok_iff] at hok
        obtain ⟨rest, _, hok⟩ := hok
        rw [bind_ok_iff] at hok
        obtain ⟨⟨v, l⟩, _, hok⟩ := hok
        dsimp only at hok
        rw [keyFields_key f _ hf, List.length_cons]
        split_ifs at hok with hi
        · have hle := ih fields (i+1) (k+1) (pos + l) (cols ++ [v]) (hloop hi) hok
          rw [List.length_append, List.length_singleton] at hle
          omega
        · simp only [Except.ok.injEq, Prod.mk.injEq] at hok
          rw [← hok.1, List.length_append, List.length_singleton]
          omega

theorem keyCols_leading (data : Bytes) (keys : List KeyField) (indexes : List ℕ)
    (total left : ℕ) (fields : List Field) (i pos : ℕ) (cols vals : List PgValue) (n : ℕ)
    (h : 1 ≤ left → InLoop keys indexes total fields i i) (hall : allKeys (fields.take left) = true)
    (hleft : left ≤ fields.length)
    (hok : anyCols data keys false left i pos cols = .ok (vals, n)) :
    keyCols data keys indexes total left i i pos cols =
      .ok (vals, if i + left < indexes.length ∨ left = 0 then n else n + total - (i + left - 1)) := by
  induction left generalizing fields i pos cols with
  | zero =>
    simp only [anyCols, pure_ok, Except.ok.injEq, Prod.mk.injEq] at hok
    simp [keyCols, hok]
  | succ left ih =>
    have h := h (by omega)
    cases fields with
    | nil => exact absurd h not_inLoop_nil
    | cons f fields =>
      rw [List.take_succ_cons, allKeys, List.all_cons, Bool.and_eq_true] at hall
      obtain ⟨hf, hall⟩ := hall
      rw [List.length_cons] at hleft
      obtain ⟨hloop, hstep⟩ := inLoop_key h hf
      obtain ⟨hnext, hkey, hlt, hfrom⟩ := keysFrom_key h.keysFrom hf
      have hcount := hfrom.count
      simp only [anyCols, hkey, ok_bind, bind_ok_iff] at hok
      obtain ⟨rest, hrest, ⟨v, l⟩, hv, hok⟩ := hok
      rw [hstep, hrest, ok_bind, hv, ok_bind]
      dsimp only at hok ⊢
      by_cases hi : i < indexes.length - 1
      · rw [if_pos hi, ih fields (i+1) (pos + l) (cols ++ [v]) (fun _ => hloop hi) hall (by omega) hok]
        have hsize : i + 1 + left - 1 = i + (left+1) - 1 := by omega
        have hcond : (i + 1 + left < indexes.length ∨ left = 0) ↔
            (i + (left+1) < indexes.length ∨ left + 1 = 0) := by omega
        simp only [hcond, hsize]
      · -- no key is left, so no column is
        have hnone : left = 0 := by
          cases left with
          | zero => rfl
          | succ left =>
            cases fields with
            | nil => simp at hleft
            | cons g fields =>
              rw [List.take_succ_cons, List.all_cons, Bool.and_eq_true] at hall
              rw [keyIndexesFrom_key (i+1) g fields hall.1, List.length_cons] at hcount
              omega
        subst hnone
        simp only [anyCols, pure_ok, Except.ok.injEq, Prod.mk.injEq] at hok
        rw [if_neg hi, if_neg (by omega), hok.1, ← hok.2, Nat.zero_add, Nat.add_sub_cancel]

/-- The counted columns up to one that is refused are keys; the keys before it
stand in the input. -/
def LeadingRefused (fields : List Field) (k : ℕ) (data : Bytes) : Prop :=
  ∃ j x, j < k ∧ allKeys (fields.take (j+1)) = true ∧ RefusedAt data (fields.map column) 2 j x

/-- Behind a column that is no key the one loop reads the next key where the
other has passed over a byte. The same is wrong with item `i` of the first as
with the item of column `j` of the second, which is not past its last key. -/
def ShiftedRefused (fields : List Field) (k : ℕ) (data : Bytes) : Prop :=
  ∃ i j x, i < k ∧ j < k ∧ allKeys (fields.take j) = false ∧
    GoesOn ((keyFields fields).length - 1) 0 fields j ∧
      RefusedAt data ((keyFields fields).map keyColumn) 2 i x ∧
        RefusedAt data (fields.map column) 2 j x

/-- The counted columns are keys, there is another key, and the input holds an
item for each of them. -/
def LeadingItems (fields : List Field) (k : ℕ) (data : Bytes) : Prop :=
  k < (keyFields fields).length ∧ allKeys (fields.take k) = true ∧
    ∃ items rest vals, data.drop 2 = items ++ rest ∧
      ItemsOf false ((keyFields fields).take k) items vals

theorem itemsOf_length {F : Type} [FieldAccess F] (isUpdate : Bool) (fields : List F)
    (bytes : Bytes) (vals : List PgValue) (h : ItemsOf isUpdate fields bytes vals) :
    vals.length = fields.length := by
  induction h with
  | nil => rfl
  | cons field fields item bytes v vals hitem hitems ih => rw [List.length_cons, List.length_cons, ih]

theorem keyFields_take_length (fields : List Field) (k : ℕ) :
    (keyFields (fields.take k)).length ≤ (keyFields fields).length := by
  have hsplit := keyFields_append (fields.take k) (fields.drop k)
  rw [List.take_append_drop] at hsplit
  rw [hsplit, List.length_append]
  omega

theorem allKeys_of_length (fields : List Field) (h : fields.length ≤ (keyFields fields).length) :
    allKeys fields = true := by
  by_contra hnot
  have hlt := keyFields_some fields (by simpa using hnot)
  omega

theorem keyFields_allKeys (fields : List Field) (h : allKeys fields = true) :
    (keyFields fields).map keyColumn = fields.map column := by
  induction fields with
  | nil => rfl
  | cons f fields ih =>
    rw [allKeys, List.all_cons, Bool.and_eq_true] at h
    have hcol : column f = keyColumn ⟨f.name, f.kind⟩ := by simp [column, keyColumn, h.1]
    rw [keyFields_key f fields h.1, List.map_cons, List.map_cons, ih h.2, hcol]

theorem leading_columns (fields : List Field) (m : ℕ) (h : allKeys (fields.take m) = true) :
    (fields.map column).take m = ((keyFields fields).map keyColumn).take (fields.take m).length := by
  have hsplit := keyFields_append (fields.take m) (fields.drop m)
  rw [List.take_append_drop] at hsplit
  rw [hsplit, List.map_append, keyFields_allKeys _ h, ← List.map_take, ← List.length_map (f := column),
    List.take_left]

theorem faults_agree_iff (fields : List Field) (k : ℕ) (hle : k ≤ fields.length) (data : Bytes) :
    (∃ x, (∃ i < k, RefusedAt data ((keyFields fields).map keyColumn) 2 i x) ∧
        ∃ j < k, GoesOn ((keyFields fields).length - 1) 0 fields j ∧
          RefusedAt data (fields.map column) 2 j x) ↔
      LeadingRefused fields k data ∨ ShiftedRefused fields k data := by
  constructor
  · rintro ⟨x, ⟨i, hi, hgeneral⟩, j, hj, hgoes, hunrolled⟩
    cases hall : allKeys (fields.take j) with
    | false => exact Or.inr ⟨i, j, x, hi, hj, hall, hgoes, hgeneral, hunrolled⟩
    | true =>
      left
      refine ⟨j, x, hj, ?_, hunrolled⟩
      obtain ⟨_, stop, _, hunread⟩ := hunrolled
      have hjlen : j < fields.length := by omega
      rw [List.getElem?_map, List.getElem?_eq_getElem hjlen, Option.map_some] at hunread
      have hkey : fields[j].isKey = true := by
        by_contra hplain
        have hcol : column fields[j] = none := if_neg hplain
        rw [hcol] at hunread
        cases hunread
      rw [List.take_add_one, List.getElem?_eq_getElem hjlen, allKeys, List.all_append]
      rw [allKeys] at hall
      simp [hall, hkey]
  · rintro (⟨j, x, hj, hall, hr⟩ | ⟨i, j, x, hi, hj, _, hgoes, hgeneral, hunrolled⟩)
    · have hcolumns := leading_columns fields (j+1) hall
      rw [List.length_take_of_le (by omega)] at hcolumns
      have hkeys : j + 1 ≤ (keyFields fields).length := by
        have hlen := congrArg List.length hcolumns
        rw [List.length_take_of_le (by rw [List.length_map]; omega), List.length_take,
          List.length_map] at hlen
        omega
      refine ⟨x, ⟨j, hj, refusedAt_take (by rw [List.length_map]; omega) hcolumns hr⟩, j, hj, ?_, hr⟩
      intro c f hc _ _
      omega
    · exact ⟨x, ⟨i, hi, hgeneral⟩, j, hj, hgoes, hunrolled⟩

/-- The loops agree where they fail alike, and where the keys read are not all
the keys there are. -/
theorem loops_agree_iff (fields : List Field) (hkeys : keyFields fields ≠ []) (k : ℕ) (hk : 1 ≤ k)
    (hle : k ≤ fields.length) (data : Bytes) (hmin : 2 ≤ data.length) :
    anyCols data (keyFields fields) false k 0 2 [] =
        keyCols data (keyFields fields) (keyIndexes fields) fields.length k 0 0 2 [] ↔
      LeadingRefused fields k data ∨ ShiftedRefused fields k data ∨ LeadingItems fields k data := by
  have hloop := inLoop_start fields hkeys
  have hlen : (keyFields fields).length = (keyIndexes fields).length := keyFields_length 0 fields
  have hitems := fun vals n => anyCols_ok_iff data (keyFields fields) false k 0 2 hmin [] vals n
  have hgeneral := fun x => anyCols_error_iff data (keyFields fields) k 0 2 hmin [] x
  have hunrolled := fun x =>
    keyCols_error_iff data (keyFields fields) (keyIndexes fields) fields.length k fields 0 0 2 [] hloop x
  have hfaults := faults_agree_iff fields k hle data
  rw [← hlen] at hunrolled
  simp only [List.drop_zero, List.nil_append] at hitems hgeneral
  rw [← or_assoc, ← hfaults]
  constructor
  · intro heq
    cases hany : anyCols data (keyFields fields) false k 0 2 [] with
    | error x =>
      left
      exact ⟨x, (hgeneral x).mp hany, (hunrolled x).mp (heq.symm.trans hany)⟩
    | ok r =>
      right
      obtain ⟨vals, n⟩ := r
      obtain ⟨done, todo, items, rest, new, hsplit, hdone, hdrop, hread, hvals, hn⟩ :=
        (hitems vals n).mp hany
      have hcount := itemsOf_length false done items new hread
      have hvalues := keyCols_values_le data _ _ _ k fields 0 0 2 [] vals n hloop
        (heq.symm.trans hany)
      rw [List.length_nil, hvals] at hvalues
      have htake := List.length_take_of_le hle
      have hall := allKeys_of_length (fields.take k) (by omega)
      have hkey := keyFields_take_length fields k
      have hleading := keyCols_leading data _ _ _ k fields 0 2 [] vals n (fun _ => hloop) hall hle hany
      rw [heq.symm.trans hany] at hleading
      simp only [Except.ok.injEq, Prod.mk.injEq, true_and] at hleading
      have hfew : k < (keyFields fields).length := by
        by_contra hnot
        rw [if_neg (by omega)] at hleading
        omega
      refine ⟨hfew, hall, items, rest, new, hdrop, ?_⟩
      rwa [hsplit, ← hdone, List.take_left]
  · rintro (⟨x, hfirst, hsecond⟩ | ⟨hfew, hall, items, rest, vals, hdrop, hread⟩)
    · rw [(hgeneral x).mpr hfirst, (hunrolled x).mpr hsecond]
    · have hany := (hitems vals (2 + items.length)).mpr ⟨(keyFields fields).take k,
        (keyFields fields).drop k, items, rest, vals, (List.take_append_drop k _).symm,
        List.length_take_of_le hfew.le, hdrop, hread, rfl, rfl⟩
      rw [hany, keyCols_leading data _ _ _ k fields 0 2 [] vals _ (fun _ => hloop) hall hle hany,
        if_pos (by omega)]

theorem readU16_min (data : Bytes) (k : ℕ) (h : readU16 data 0 = .ok k) : 2 ≤ data.length := by
  by_contra hshort
  have hout : (slice data 0 (0 + 2) : Decoded Bytes) = panicked :=
    (slice_panics_iff data 0 (0 + 2)).mpr (by omega)
  rw [readU16, hout] at h
  cases h

/-- For every relation the decoder builds and every input, the key decoder
agrees with its unrolled loop exactly at counts up to six, and from seven on
where the two loops do. -/
theorem keys_agree_iff (msg : Bytes) (rd : RelationData) (hrd : RelationDecoder.parse msg = .ok rd)
    (hkeys : rd.keyFields ≠ []) (data : Bytes) (k : ℕ) (hcount : readU16 data 0 = .ok k)
    (hle : k ≤ rd.inner.fields.length) :
    parseKeys data rd.keyFields rd.keyIndexes rd.inner.fields.length =
        keyCols data rd.keyFields rd.keyIndexes rd.inner.fields.length k 0 0 2 [] ↔
      k ≤ 6 ∨ LeadingRefused rd.inner.fields k data ∨ ShiftedRefused rd.inner.fields k data ∨
        LeadingItems rd.inner.fields k data := by
  have hbuilt := parse_built msg rd hrd
  rw [hbuilt.keyFields_eq] at hkeys
  rw [hbuilt.keyFields_eq, hbuilt.keyIndexes_eq]
  have hmin := readU16_min data k hcount
  have hshort : ¬ data.length < 2 := by omega
  have hfew : ¬ k > rd.inner.fields.length := by omega
  simp only [parseKeys, hshort, if_false, hcount, ok_bind, hfew]
  by_cases hk : 1 ≤ k
  · by_cases hsix : k ≤ 6
    · rw [if_pos ⟨hk, hsix⟩]
      exact iff_of_true rfl (Or.inl hsix)
    · rw [if_neg (by omega), loops_agree_iff rd.inner.fields hkeys k hk hle data hmin]
      simp [hsix]
  · have hzero : k = 0 := by omega
    rw [if_neg (by omega), hzero]
    exact iff_of_true rfl (Or.inl (Nat.zero_le 6))

def keyed (isKey : Bool) : Column := ⟨if isKey then 1 else 0, "n", 23, 0⟩

def keyedField (isKey : Bool) : Field := ⟨isKey, "n", .int4⟩

theorem keyed_decode (keys : List Bool) (h : keys.length < 65536) :
    RelationDecoder.parse (relationBytes 1 "p" "u" .keys (keys.map keyed)) =
      .ok ⟨⟨1, "u", "p", keys.map keyedField, .keys⟩, keyFields (keys.map keyedField),
        keyIndexes (keys.map keyedField)⟩ := by
  have hcolumns : ∀ c ∈ keys.map keyed, c.WellFormed := by
    simp only [List.mem_map]
    rintro _ ⟨isKey, _, rfl⟩
    cases isKey with
    | false => exact ⟨by decide, by decide, fun _ => rfl⟩
    | true => exact ⟨by decide, by decide, fun _ => rfl⟩
  have hfields : (keys.map keyed).filterMap Column.field = keys.map keyedField := by
    rw [List.filterMap_map, ← List.filterMap_eq_map]
    apply List.filterMap_congr
    intro isKey _
    cases isKey <;> rfl
  have hparse := parse_relation 1 "p" "u" .keys (keys.map keyed) [] (by decide) (by decide)
    (by rwa [List.length_map]) hcolumns
  rw [List.append_nil] at hparse
  rw [hparse, hfields]

def firstKey : List Bool := true :: List.replicate 6 false

def keyTuple : Bytes := [0,7, 0x62, 0,0,0,4, 0,0,0,5, 0x6E, 0x6E, 0x6E, 0x6E, 0x6E, 0x6E]

theorem seven_columns_panic :
    ∃ rd, RelationDecoder.parse (relationBytes 1 "p" "u" .keys (firstKey.map keyed)) = .ok rd ∧
      readU16 keyTuple 0 = .ok 7 ∧ rd.inner.fields.length = 7 ∧
      parseKeys keyTuple rd.keyFields rd.keyIndexes rd.inner.fields.length = panicked ∧
      keyCols keyTuple rd.keyFields rd.keyIndexes rd.inner.fields.length 7 0 0 2 [] =
        .ok ([.int4 5], 18) := by
  refine ⟨_, keyed_decode firstKey (by decide), ?_⟩
  decide

/-- The loops agree: on seven leading keys of eight, on a first key that is
refused, and where the byte behind the first key is no item, nor the next. -/
theorem agreeing_loops :
    (parseKeys [0,7, 0x62, 0,0,0,4, 0,0,0,5, 0x6E, 0x6E, 0x6E, 0x6E, 0x6E, 0x6E]
        (keyFields ((List.replicate 8 true).map keyedField))
        (keyIndexes ((List.replicate 8 true).map keyedField)) 8 =
      keyCols [0,7, 0x62, 0,0,0,4, 0,0,0,5, 0x6E, 0x6E, 0x6E, 0x6E, 0x6E, 0x6E]
        (keyFields ((List.replicate 8 true).map keyedField))
        (keyIndexes ((List.replicate 8 true).map keyedField)) 8 7 0 0 2 []) ∧
    (parseKeys [0,7, 0x75, 0x6E] (keyFields (firstKey.map keyedField))
        (keyIndexes (firstKey.map keyedField)) 7 =
      keyCols [0,7, 0x75, 0x6E] (keyFields (firstKey.map keyedField))
        (keyIndexes (firstKey.map keyedField)) 7 7 0 0 2 []) ∧
    (parseKeys [0,7, 0x6E, 0x78, 0x78] (keyFields ((true :: false :: firstKey).map keyedField))
        (keyIndexes ((true :: false :: firstKey).map keyedField)) 9 =
      keyCols [0,7, 0x6E, 0x78, 0x78] (keyFields ((true :: false :: firstKey).map keyedField))
        (keyIndexes ((true :: false :: firstKey).map keyedField)) 9 7 0 0 2 []) := by
  refine ⟨?_, ?_, ?_⟩
  · have hnull : ItemOf false .int4 [0x6E] .null := .null
    have hfive : ItemOf false .int4 [0x62, 0,0,0,4, 0,0,0,5] (.int4 5) :=
      .binary [0,0,0,4] [0,0,0,5] (.int4 5) rfl rfl ⟨rfl, rfl, by decide⟩
    refine (keys_agree_iff _ _ (keyed_decode (List.replicate 8 true) (by decide)) (by decide)
      _ 7 (by decide) (by decide)).mpr (Or.inr (Or.inr (Or.inr
        ⟨by decide, by decide, _, [], .int4 5 :: List.replicate 6 .null, (List.append_nil _).symm,
          ?_⟩)))
    have hnulls : ItemsOf false (List.replicate 6 (⟨"n", .int4⟩ : KeyField)) (List.replicate 6 0x6E)
        (List.replicate 6 .null) :=
      .cons _ _ [0x6E] _ _ _ hnull (.cons _ _ [0x6E] _ _ _ hnull (.cons _ _ [0x6E] _ _ _ hnull
        (.cons _ _ [0x6E] _ _ _ hnull (.cons _ _ [0x6E] _ _ _ hnull
          (.cons _ _ [0x6E] _ _ _ hnull .nil)))))
    exact .cons _ _ [0x62, 0,0,0,4, 0,0,0,5] _ _ _ hfive hnulls
  · refine (keys_agree_iff _ _ (keyed_decode firstKey (by decide)) (by decide) _ 7 (by decide)
      (by decide)).mpr (Or.inr (Or.inl ⟨0, .error .toastedValueOnNonUpdate, by decide, by decide, ?_⟩))
    exact refusedAt_first.mpr (.refused .int4 2 _ (by decide) (.toasted [0x6E]))
  · refine (keys_agree_iff _ _ (keyed_decode (true :: false :: firstKey) (by decide)) (by decide) _ 7
      (by decide) (by decide)).mpr (Or.inr (Or.inr (Or.inl
        ⟨1, 2, .error (.wrongColTypeKey 0x78), by decide, by decide, by decide, ?_, ?_, ?_⟩)))
    · exact goesOn_cons.mpr ⟨fun _ => by decide, goesOn_cons.mpr ⟨fun h => (by cases h),
        fun c f hc => absurd hc (Nat.not_lt_zero c)⟩⟩
    · exact refusedAt_item.mpr ⟨[0x6E], [0x78, 0x78], .null, rfl, .null,
        refusedAt_first.mpr (.refused .int4 3 _ (by decide) (.unknown 0x78 [0x78] (by decide)))⟩
    · exact refusedAt_item.mpr ⟨[0x6E], [0x78, 0x78], .null, rfl, .null, refusedAt_passed.mpr
        (refusedAt_first.mpr (.refused .int4 4 _ (by decide) (.unknown 0x78 [] (by decide))))⟩

end CDC.KeyLoops
