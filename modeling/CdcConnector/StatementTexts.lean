import Mathlib.Data.List.Nodup
import CdcConnector.StatementCache

/-!
# The texts of the two statements

A separator after every string but the last, by comparing indexes, is the
usual list with separators. The assignments of the upsert skip the key
columns while they compare indexes of all columns: their list is well formed
unless a key column comes last behind another column that is no key.
-/

set_option autoImplicit false

namespace CDC.StatementTexts
open CDC.Event CDC.SinkStatements CDC.PostgresSink

theorem separated {α : Type} (sep : String) (f : α × ℕ → String) (n i : ℕ) (xs : List α)
    (hn : i + xs.length = n) :
    String.join ((xs.zipIdx i).map (fun p => f p ++ if p.2 < n - 1 then sep else "")) =
      sep.intercalate ((xs.zipIdx i).map f) := by
  induction xs generalizing i with
  | nil => simp
  | cons x xs ih =>
    rw [List.length_cons] at hn
    rw [List.zipIdx_cons, List.map_cons, List.map_cons, String.join_cons, ih (i+1) (by omega)]
    cases xs with
    | nil =>
      rw [List.length_nil] at hn
      have hlast : ¬ i < n - 1 := by omega
      simp [hlast]
    | cons y ys =>
      rw [List.length_cons] at hn
      have hnext : i < n - 1 := by omega
      simp [hnext, String.append_assoc]

theorem written_eq (sep : String) (n : ℕ) (xs : List String) (hn : xs.length = n) :
    written (fun i => if i < n - 1 then sep else "") xs = sep.intercalate xs := by
  have h := separated sep Prod.fst n 0 xs (by omega)
  rwa [List.zipIdx_map_fst] at h

def assignment (f : Field) : String := f.name ++ " = EXCLUDED." ++ f.name

def plainFields (fields : List Field) : List Field := fields.filter (fun f => !f.isKey)

def keyLast (fields : List Field) : Bool := fields.getLast?.any Field.isKey

def upsertSpec (table : String) (fields : List Field) : String :=
  "INSERT INTO " ++ table ++ " (" ++ ",".intercalate (fields.map Field.name) ++ ") VALUES (" ++
    ",".intercalate ((List.range fields.length).map param) ++ ") ON CONFLICT (" ++
    ", ".intercalate ((fields.filter Field.isKey).map Field.name) ++ ")" ++
    if fields.all Field.isKey then " DO NOTHING"
    else " DO UPDATE SET " ++ ",".intercalate ((plainFields fields).map assignment)

theorem keyLast_of_plain (f : Field) (fields : List Field) (h : plainFields (f::fields) = []) :
    keyLast (f::fields) = true := by
  have hall : ∀ g ∈ f::fields, g.isKey = true := by
    simpa [plainFields, List.filter_eq_nil_iff] using h
  simpa [keyLast, List.getLast?_eq_some_getLast] using hall _ (List.getLast_mem (by simp))

theorem assignments_from (n i : ℕ) (fields : List Field) (hn : i + fields.length = n) :
    String.join ((fields.zipIdx i).map (fun (f, j) =>
        if f.isKey then "" else assignment f ++ if j < n - 1 then "," else "")) =
      ",".intercalate ((plainFields fields).map assignment) ++
        if keyLast fields && !(plainFields fields).isEmpty then "," else "" := by
  induction fields generalizing i with
  | nil => simp [plainFields]
  | cons f fields ih =>
    rw [List.length_cons] at hn
    rw [List.zipIdx_cons, List.map_cons, String.join_cons, ih (i+1) (by omega)]
    cases fields with
    | nil =>
      rw [List.length_nil] at hn
      have hlast : ¬ i < n - 1 := by omega
      cases hf : f.isKey <;> simp [plainFields, keyLast, hf, hlast]
    | cons g fields =>
      rw [List.length_cons] at hn
      have hnext : i < n - 1 := by omega
      have hkey : keyLast (f::g::fields) = keyLast (g::fields) := by simp [keyLast]
      rw [hkey]
      cases hf : f.isKey with
      | true =>
        have hp : plainFields (f::g::fields) = plainFields (g::fields) := by simp [plainFields, hf]
        simp [hp, hf]
      | false =>
        have hp : plainFields (f::g::fields) = f :: plainFields (g::fields) := by
          simp [plainFields, hf]
        rw [hp]
        cases hrest : plainFields (g::fields) with
        | nil => simp [hf, hnext, keyLast_of_plain g fields hrest]
        | cons p ps => simp [hf, hnext, String.append_assoc]

theorem keys_all_iff (fields : List Field) :
    (fields.filter Field.isKey).length = fields.length ↔ fields.all Field.isKey = true := by
  rw [List.length_filter_eq_length_iff, List.all_eq_true]

theorem keys_contain_iff (fields : List Field) (hnodup : (fields.map Field.name).Nodup) (f : Field)
    (hf : f ∈ fields) :
    ((fields.filter Field.isKey).map Field.name).contains f.name = f.isKey := by
  rw [Bool.eq_iff_iff, List.contains_iff_mem, List.mem_map]
  constructor
  · rintro ⟨g, hg, hname⟩
    obtain ⟨hg, hkey⟩ := List.mem_filter.mp hg
    rwa [← List.inj_on_of_nodup_map hnodup hg hf hname]
  · intro hkey
    exact ⟨f, List.mem_filter.mpr ⟨hf, hkey⟩, rfl⟩

theorem assignments_eq (fields : List Field) (hnodup : (fields.map Field.name).Nodup) :
    UpsertStatement.assignments (fields.map Field.name) ((fields.filter Field.isKey).map Field.name) =
      ",".intercalate ((plainFields fields).map assignment) ++
        if keyLast fields && !(plainFields fields).isEmpty then "," else "" := by
  rw [← assignments_from fields.length 0 fields (by omega), UpsertStatement.assignments,
    List.length_map]
  congr 1
  rw [List.zipIdx_map, List.map_map]
  apply List.map_congr_left
  rintro ⟨f, i⟩ hmem
  have hf : f ∈ fields := List.fst_mem_of_mem_zipIdx hmem
  simp only [Function.comp_apply, Prod.map_apply, id, keys_contain_iff fields hnodup f hf, assignment]

theorem extractKeysRel_eq (rel : Relation) :
    extractKeysRel rel = (rel.fields.filter Field.isKey).map Field.name := by
  rw [extractKeysRel, ← List.filterMap_eq_map, List.filterMap_filter]
  rfl

theorem genStr_lists (table : String) (rows keys : List String) :
    UpsertStatement.genStr table rows keys =
      "INSERT INTO " ++ table ++ " (" ++ ",".intercalate rows ++ ") VALUES (" ++
        ",".intercalate ((List.range rows.length).map param) ++ ")" ++ " ON CONFLICT (" ++
        ", ".intercalate keys ++
        if rows.length ≠ keys.length then ") DO UPDATE SET " ++ UpsertStatement.assignments rows keys
        else ") DO NOTHING" := by
  have hrows := written_eq "," rows.length rows rfl
  have hparams := written_eq "," rows.length ((List.range rows.length).map param) (by simp)
  have hkeys := written_eq ", " keys.length keys rfl
  unfold UpsertStatement.genStr
  simp only [hrows, hparams, hkeys]

/-- The text as generated: the expected one, with a comma too many where a
key column comes last behind one that is no key. -/
theorem genStr_eq (table : String) (rel : Relation) (hnodup : (extractFieldsNames rel).Nodup) :
    UpsertStatement.genStr table (extractFieldsNames rel) (extractKeysRel rel) =
      upsertSpec table rel.fields ++
        if keyLast rel.fields && !rel.fields.all Field.isKey then "," else "" := by
  have hplain : (plainFields rel.fields).isEmpty = rel.fields.all Field.isKey := by
    rw [Bool.eq_iff_iff, List.isEmpty_iff, plainFields, List.filter_eq_nil_iff, List.all_eq_true]
    simp
  have hcount := keys_all_iff rel.fields
  unfold upsertSpec
  rw [genStr_lists, extractKeysRel_eq, extractFieldsNames, assignments_eq rel.fields hnodup, hplain,
    List.length_map, List.length_map]
  cases hall : rel.fields.all Field.isKey with
  | true =>
    have heq : ¬ rel.fields.length ≠ (rel.fields.filter Field.isKey).length := by
      rw [hcount.mpr hall]
      exact not_not.mpr rfl
    rw [if_neg heq]
    simp [String.append_assoc]
  | false =>
    have hne : rel.fields.length ≠ (rel.fields.filter Field.isKey).length := by
      intro h
      rw [hcount.mp h.symm] at hall
      cases hall
    have hclose : ") DO UPDATE SET " = ")" ++ " DO UPDATE SET " := rfl
    have hconflict : ") ON CONFLICT (" = ")" ++ " ON CONFLICT (" := rfl
    rw [if_pos hne, hclose, hconflict]
    simp only [String.append_assoc, Bool.not_false, Bool.and_true, Bool.false_eq_true, if_false]

/-- With distinct column names the upsert is well formed exactly when every
column is a key or the last column is none. -/
theorem upsert_text_iff (table : String) (rel : Relation) (hnodup : (extractFieldsNames rel).Nodup) :
    UpsertStatement.genStr table (extractFieldsNames rel) (extractKeysRel rel) =
        upsertSpec table rel.fields ↔
      rel.fields.all Field.isKey = true ∨ keyLast rel.fields = false := by
  rw [genStr_eq table rel hnodup]
  by_cases hcomma : (keyLast rel.fields && !rel.fields.all Field.isKey) = true
  · rw [if_pos hcomma]
    simp only [Bool.and_eq_true, Bool.not_eq_true'] at hcomma
    constructor
    · intro h
      have hlen := congrArg String.length h
      rw [String.length_append] at hlen
      exact absurd hlen (by simp)
    · rintro (hall | hlast)
      · rw [hall] at hcomma
        cases hcomma.2
      · rw [hlast] at hcomma
        cases hcomma.1
  · rw [if_neg hcomma, String.append_empty]
    simp only [Bool.and_eq_true, Bool.not_eq_true', not_and, Bool.not_eq_false] at hcomma
    refine iff_of_true rfl ?_
    by_cases hlast : keyLast rel.fields = true
    · exact Or.inl (hcomma hlast)
    · exact Or.inr (by simpa using hlast)

def keyAtEnd : Relation :=
  ⟨1, "t", "p", [⟨false, "note", .text⟩, ⟨true, "id", .int4⟩], .keys⟩

theorem comma_before_nothing :
    (extractFieldsNames keyAtEnd).Nodup ∧
      UpsertStatement.genStr "t" (extractFieldsNames keyAtEnd) (extractKeysRel keyAtEnd) =
        "INSERT INTO t (note,id) VALUES ($1,$2) ON CONFLICT (id) DO UPDATE SET " ++
          "note = EXCLUDED.note," ∧
      UpsertStatement.genStr "t" (extractFieldsNames keyAtEnd) (extractKeysRel keyAtEnd) ≠
        upsertSpec "t" keyAtEnd.fields := by
  decide +kernel

theorem wide_text :
    (extractFieldsNames StatementCache.wide).Nodup ∧
      UpsertStatement.genStr "u" (extractFieldsNames StatementCache.wide)
        (extractKeysRel StatementCache.wide) = upsertSpec "u" StatementCache.wide.fields :=
  ⟨by decide, (upsert_text_iff "u" StatementCache.wide (by decide)).mpr (Or.inr (by decide))⟩

end CDC.StatementTexts
