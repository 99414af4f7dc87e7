import CdcConnector.KeyTuple
import CdcConnector.RowDecoder

/-!
# Filling toasted columns

A toasted column is filled from the old list at its own position. For a full
old row that is its own old value. A key list is compact, so there it is the
old value of the key column with that number.
-/

set_option autoImplicit false

namespace CDC.MergeToasted
open CDC.Event CDC.Decoder CDC.RelationDecoder CDC.RowDecoder CDC.KeyTuple

/-- Every position after the merge: the old list at the toasted ones. -/
theorem mergeToastedFrom_get (old : List PgValue) (i : ℕ) (row row' : List PgValue)
    (h : mergeToastedFrom old i row = .ok row') (j : ℕ) :
    row'[j]? = if row[j]? = some .toasted then old[i+j]? else row[j]? := by
  induction row generalizing i j row' with
  | nil =>
    cases h
    simp
  | cons v row ih =>
    have hmap : ∀ o, (mergeToastedFrom old (i+1) row).map (o :: ·) = .ok row' →
        row'[0]? = some o ∧
          ∀ j, row'[j+1]? = if row[j]? = some .toasted then old[i+(j+1)]? else row[j]? := by
      intro o ho
      cases hm : mergeToastedFrom old (i+1) row with
      | error e =>
        rw [hm] at ho
        cases ho
      | ok tail =>
        rw [hm] at ho
        cases ho
        refine ⟨rfl, fun j => ?_⟩
        rw [List.getElem?_cons_succ, ih (i+1) tail hm j, Nat.add_right_comm, Nat.add_assoc]
    by_cases hv : v = .toasted
    · simp only [mergeToastedFrom, hv, if_true] at h
      cases hold : old[i]? with
      | none =>
        rw [hold] at h
        cases h
      | some o =>
        rw [hold] at h
        obtain ⟨hzero, hsucc⟩ := hmap o h
        cases j with
        | zero => simp [hzero, hv, hold]
        | succ j => simpa using hsucc j
    · simp only [mergeToastedFrom, hv, if_false] at h
      obtain ⟨hzero, hsucc⟩ := hmap v h
      cases j with
      | zero => simp [hzero, hv]
      | succ j => simpa using hsucc j

theorem mergeToastedFrom_error_iff (old : List PgValue) (i : ℕ) (row : List PgValue) :
    mergeToastedFrom old i row = .error .mk ↔
      ∃ j, row[j]? = some .toasted ∧ old.length ≤ i + j := by
  induction row generalizing i with
  | nil => simp [mergeToastedFrom]
  | cons v row ih =>
    have hmap : ∀ o, (mergeToastedFrom old (i+1) row).map (o :: ·) = .error .mk ↔
        ∃ j, row[j]? = some .toasted ∧ old.length ≤ i + 1 + j := by
      intro o
      rw [← ih (i+1)]
      cases mergeToastedFrom old (i+1) row with
      | error e => simp [Except.map]
      | ok tail => simp [Except.map]
    have hsplit : (∃ j, (v::row)[j]? = some .toasted ∧ old.length ≤ i + j) ↔
        (v = .toasted ∧ old.length ≤ i) ∨ ∃ j, row[j]? = some .toasted ∧ old.length ≤ i + 1 + j := by
      constructor
      · rintro ⟨j, hj, hle⟩
        cases j with
        | zero => exact Or.inl ⟨by simpa using hj, hle⟩
        | succ j => exact Or.inr ⟨j, by simpa using hj, by omega⟩
      · rintro (⟨hv, hle⟩ | ⟨j, hj, hle⟩)
        · exact ⟨0, by simpa using hv, hle⟩
        · exact ⟨j+1, by simpa using hj, by omega⟩
    rw [hsplit]
    by_cases hv : v = .toasted
    · simp only [mergeToastedFrom, hv, if_true, true_and]
      by_cases hle : old.length ≤ i
      · simp [hle]
      · rw [List.getElem?_eq_getElem (by omega)]
        simp only [hmap, hle, false_or]
    · simp only [mergeToastedFrom, hv, if_false, hmap, false_and, false_or]

theorem merge_or_error (old row : List PgValue) :
    mergeToastedFrom old 0 row = .error .mk ∨ ∃ row', mergeToastedFrom old 0 row = .ok row' := by
  cases mergeToastedFrom old 0 row with
  | error e => exact Or.inl rfl
  | ok row' => exact Or.inr ⟨row', rfl⟩

/-- The old lists an update can carry for this old row. -/
def OldOf (relation : Relation) (oldRow old : List PgValue) : Prop :=
  old = [] ∨ (relation.replicaId = .row ∧ old = oldRow) ∨
    (relation.replicaId = .keys ∧ old = keyPart relation.fields oldRow)

/-- The merge fails, or fills every toasted column with the old value of that
column and leaves the others alone. -/
def FilledByOwn (oldRow old row : List PgValue) : Prop :=
  mergeToasted (.update old row) = .error .mk ∨
    ∃ row', mergeToasted (.update old row) = .ok (.update old row') ∧ row'.length = row.length ∧
      ∀ c : ℕ, row'[c]? = if row[c]? = some .toasted then oldRow[c]? else row[c]?

theorem filledByOwn_iff (oldRow old row : List PgValue) :
    FilledByOwn oldRow old row ↔
      (∃ c : ℕ, row[c]? = some .toasted ∧ old.length ≤ c) ∨
        ∀ c : ℕ, row[c]? = some .toasted → old[c]? = oldRow[c]? := by
  have herr := mergeToastedFrom_error_iff old 0 row
  simp only [Nat.zero_add] at herr
  unfold FilledByOwn
  simp only [mergeToasted]
  rcases merge_or_error old row with he | ⟨row', ho⟩
  · simp only [he]
    exact iff_of_true (Or.inl rfl) (Or.inl (herr.mp he))
  · have hnone : ¬ ∃ c : ℕ, row[c]? = some .toasted ∧ old.length ≤ c := by
      rw [← herr, ho]
      simp
    have hget := mergeToastedFrom_get old 0 row row' ho
    simp only [Nat.zero_add] at hget
    simp only [ho, Except.map, reduceCtorEq, false_or, hnone, Except.ok.injEq, Op.update.injEq,
      true_and]
    constructor
    · rintro ⟨_, rfl, _, hown⟩ c hc
      have h := (hget c).symm.trans (hown c)
      rwa [if_pos hc, if_pos hc] at h
    · intro hown
      refine ⟨row', rfl, mergeToastedFrom_length _ _ _ _ ho, fun c => ?_⟩
      rw [hget c]
      split_ifs with hc
      · exact hown c hc
      · rfl

/-- Every column is filled with its own old value exactly when the old list
is empty or the full row, some toasted column has a number no key has, or
each toasted column agrees with the key column of its number. -/
theorem own_old_iff (relation : Relation) (oldRow old row : List PgValue)
    (holdRow : oldRow.length = relation.fields.length) (hold : OldOf relation oldRow old) :
    FilledByOwn oldRow old row ↔
      old = [] ∨ relation.replicaId = .row ∨
        (∃ c : ℕ, row[c]? = some .toasted ∧ (keyIndexes relation.fields).length ≤ c) ∨
        ∀ c k : ℕ, row[c]? = some .toasted → (keyIndexes relation.fields)[c]? = some k →
          oldRow[k]? = oldRow[c]? := by
  rw [filledByOwn_iff]
  have hempty : ∀ {p : ℕ → Prop}, ((∃ c : ℕ, row[c]? = some .toasted ∧ ([] : List PgValue).length ≤ c) ∨
      ∀ c : ℕ, row[c]? = some .toasted → p c) := by
    intro p
    by_cases h : ∃ c : ℕ, row[c]? = some .toasted
    · obtain ⟨c, hc⟩ := h
      exact Or.inl ⟨c, hc, Nat.zero_le c⟩
    · exact Or.inr (fun c hc => absurd ⟨c, hc⟩ h)
  rcases hold with rfl | ⟨hid, rfl⟩ | ⟨hid, rfl⟩
  · exact iff_of_true hempty (Or.inl rfl)
  · exact iff_of_true (Or.inr (fun _ _ => rfl)) (Or.inr (Or.inl hid))
  · have hpart : (keyPart relation.fields oldRow).length = (keyIndexes relation.fields).length :=
      keyPart_length relation.fields oldRow 0 holdRow
    have hget : ∀ c, (keyPart relation.fields oldRow)[c]? =
        (keyIndexes relation.fields)[c]?.bind (oldRow[·]?) :=
      keyPart_get oldRow 0 relation.fields (by omega)
    rw [hpart]
    by_cases hout : ∃ c : ℕ, row[c]? = some .toasted ∧ (keyIndexes relation.fields).length ≤ c
    · exact iff_of_true (Or.inl hout) (Or.inr (Or.inr (Or.inl hout)))
    · have hsome : ∀ c : ℕ, row[c]? = some .toasted →
          ∃ k, (keyIndexes relation.fields)[c]? = some k := by
        intro c hc
        have hlt : c < (keyIndexes relation.fields).length := by
          by_contra hge
          exact hout ⟨c, hc, by omega⟩
        exact ⟨_, List.getElem?_eq_getElem hlt⟩
      simp only [hout, false_or]
      constructor
      · intro hown
        refine Or.inr (Or.inr (fun c k hc hk => ?_))
        rw [← hown c hc, hget c, hk, Option.bind_some]
      · rintro (hnil | hrow | hkeys) c hc
        · obtain ⟨k, hk⟩ := hsome c hc
          have hzero := congrArg List.length hnil
          rw [hpart, List.length_nil] at hzero
          rw [List.getElem?_eq_none (by omega)] at hk
          cases hk
        · rw [hid] at hrow
          cases hrow
        · obtain ⟨k, hk⟩ := hsome c hc
          rw [hget c, hk, Option.bind_some]
          exact hkeys c k hc hk

def notesRelation : Relation :=
  ⟨1, "t", "p", [⟨false, "note", .text⟩, ⟨true, "id", .int4⟩], .keys⟩

def notesUpdate : Bytes :=
  tagU :: [0,0,0,1] ++ tagK :: [0,2, 0x6e, 0x62,0,0,0,4, 0,0,0,7] ++ [0] ++
    tagN :: [0,2, 0x75, 0x62,0,0,0,4, 0,0,0,7]

/-- The merge writes the key's old value over the note. -/
theorem key_value_in_note :
    Update.parse notesUpdate (fun _ => some ⟨notesRelation, [⟨"id", .int4⟩], [1]⟩) =
        .ok (⟨.update [.int4 7] [.toasted, .int4 7], 1⟩, ⟨notesRelation, [⟨"id", .int4⟩], [1]⟩) ∧
      OldOf notesRelation [.text "long", .int4 7] [.int4 7] ∧
      mergeToasted (.update [.int4 7] [.toasted, .int4 7]) =
        .ok (.update [.int4 7] [.int4 7, .int4 7]) ∧
      ¬ FilledByOwn [.text "long", .int4 7] [.int4 7] [.toasted, .int4 7] := by
  refine ⟨by decide +kernel, Or.inr (Or.inr ⟨rfl, rfl⟩), rfl, ?_⟩
  rw [filledByOwn_iff]
  rintro (⟨c, hc, hle⟩ | hown)
  · cases c with
    | zero => simp at hle
    | succ c => cases c <;> simp at hc
  · exact absurd (hown 0 rfl) (by decide)

theorem toasted_behind_keys :
    OldOf ⟨1, "t", "p", [⟨true, "id", .int4⟩, ⟨false, "note", .text⟩], .keys⟩
      [.int4 7, .text "long"] [.int4 7] ∧
    FilledByOwn [.int4 7, .text "long"] [.int4 7] [.int4 7, .toasted] :=
  have hold : OldOf ⟨1, "t", "p", [⟨true, "id", .int4⟩, ⟨false, "note", .text⟩], .keys⟩
      [.int4 7, .text "long"] [.int4 7] := Or.inr (Or.inr ⟨rfl, rfl⟩)
  ⟨hold, (own_old_iff _ _ _ _ rfl hold).mpr (Or.inr (Or.inr (Or.inl ⟨1, rfl, by decide⟩)))⟩

end CDC.MergeToasted
