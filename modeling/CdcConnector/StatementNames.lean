import CdcConnector.DeleteBinding
import CdcConnector.SqlReader

/-!
# The names in the generated texts

The sink writes the names as they are, without quotes. What Postgres reads in
the two texts are the given names exactly when each of them is a regular
identifier in lower case and no reserved word, there is a key, and no comma is
left over behind the last assignment.
-/

set_option autoImplicit false

namespace CDC.StatementNames
open CDC.Event CDC.SqlLexer CDC.SqlReader
open CDC.SinkStatements hiding param Statement

section Assignments

def updated (rows keys : List String) : List String := rows.filter (fun c => !keys.contains c)

def lastIsKey (rows keys : List String) : Bool := rows.getLast?.any keys.contains

def assignmentText (c : String) : String := c ++ " = EXCLUDED." ++ c

def fieldOf (keys : List String) (c : String) : Field := ⟨keys.contains c, c, .text⟩

theorem assignments_written (rows keys : List String) :
    UpsertStatement.assignments rows keys =
      ",".intercalate ((updated rows keys).map assignmentText) ++
        if lastIsKey rows keys && !(updated rows keys).isEmpty then "," else "" := by
  have hplain : StatementTexts.plainFields (rows.map (fieldOf keys)) =
      (updated rows keys).map (fieldOf keys) := by
    rw [StatementTexts.plainFields, List.filter_map, updated]
    rfl
  have hlast : StatementTexts.keyLast (rows.map (fieldOf keys)) = lastIsKey rows keys := by
    rw [StatementTexts.keyLast, lastIsKey, List.getLast?_map, Option.any_map]
    rfl
  have htext := StatementTexts.assignments_from rows.length 0 (rows.map (fieldOf keys))
    (by rw [List.length_map]; omega)
  rw [hplain, hlast, List.map_map, List.isEmpty_map, List.zipIdx_map, List.map_map] at htext
  rw [UpsertStatement.assignments]
  exact htext

end Assignments

section Text

theorem name_lexes (x : String) (h : isPlain x.toList = true) : Lexes x.toList [name x] :=
  lexes_plain x.toList h

theorem param_text (n : ℕ) : (SinkStatements.param n).toList = '$' :: Nat.toDigits 10 (n + 1) := by
  rw [SinkStatements.param, String.toList_append]
  show '$' :: (n + 1).repr.toList = _
  rw [Nat.toList_repr]

theorem param_lexes (n : ℕ) : Lexes (SinkStatements.param n).toList [.param (n + 1)] := by
  rw [param_text]
  exact lexes_param (n + 1)

theorem names_lexes (sep : String) (hsep : IsFixed sep.toList [comma]) (xs : List String)
    (h : ∀ x ∈ xs, isPlain x.toList = true) : Lexes (sep.intercalate xs).toList (names xs) := by
  rw [String.toList_intercalate]
  exact lexes_separated String.toList (fun x => [name x]) sep.toList [comma] hsep xs
    (fun x hx => name_lexes x (h x hx))

theorem params_lexes (n : ℕ) :
    Lexes (",".intercalate ((List.range n).map SinkStatements.param)).toList
      (params ((List.range n).map (· + 1))) := by
  rw [String.toList_intercalate, List.map_map, params, List.map_map]
  exact lexes_separated _ _ ",".toList [comma] (by decide) (List.range n)
    (fun i _ => param_lexes i)

theorem assignment_lexes (x : String) (h : isPlain x.toList = true) :
    Lexes (assignmentText x).toList (assignmentToks x) := by
  rw [assignmentText, String.toList_append, String.toList_append, List.append_assoc]
  exact lexes_around _ _ _ [name x] [.special '=', key "excluded", .special '.'] [name x]
    (name_lexes x h) (by decide) (name_lexes x h)

theorem assignments_lex (xs : List String) (h : ∀ x ∈ xs, isPlain x.toList = true) :
    Lexes (",".intercalate (xs.map assignmentText)).toList
      ([comma].intercalate (xs.map assignmentToks)) := by
  rw [String.toList_intercalate, List.map_map]
  exact lexes_separated _ _ ",".toList [comma] (by decide) xs
    (fun x hx => assignment_lexes x (h x hx))

def assignmentsToks (rows keys : List String) : List Token :=
  [comma].intercalate ((updated rows keys).map assignmentToks) ++
    if lastIsKey rows keys && !(updated rows keys).isEmpty then [comma] else []

theorem assignments_written_lex (rows keys : List String)
    (h : ∀ x ∈ rows, isPlain x.toList = true) :
    Lexes (UpsertStatement.assignments rows keys).toList (assignmentsToks rows keys) := by
  have hlex := assignments_lex (updated rows keys) (fun x hx => h x (List.mem_of_mem_filter hx))
  rw [assignments_written, assignmentsToks, String.toList_append]
  split_ifs
  · exact lexes_around _ ",".toList [] _ [comma] [] hlex (by decide) lexes_nil
  · exact (List.append_nil _).symm ▸ (List.append_nil _).symm ▸ hlex

def actionToks (rows keys : List String) : List Token :=
  if rows.length ≠ keys.length then [key "update", key "set"] ++ assignmentsToks rows keys
  else [key "nothing"]

theorem upsert_lex (table : String) (rows keys : List String) (htable : isPlain table.toList = true)
    (hrows : ∀ x ∈ rows, isPlain x.toList = true) (hkeys : ∀ x ∈ keys, isPlain x.toList = true) :
    lex .between (UpsertStatement.genStr table rows keys).toList =
      some ([key "insert", key "into"] ++ ([name table] ++ ([.special '('] ++
        (names rows ++ ([.special ')', key "values", .special '('] ++
        (params ((List.range rows.length).map (· + 1)) ++
        ([.special ')', key "on", key "conflict", .special '('] ++ (names keys ++
        ([.special ')', key "do"] ++ actionToks rows keys))))))))) := by
  have haction : Lexes (", ".intercalate keys ++
      if rows.length ≠ keys.length then ") DO UPDATE SET " ++ UpsertStatement.assignments rows keys
      else ") DO NOTHING").toList
        (names keys ++ ([.special ')', key "do"] ++ actionToks rows keys)) := by
    have hkeyNames := names_lexes ", " (by decide) keys hkeys
    rw [actionToks, String.toList_append]
    split_ifs
    · have hlex := assignments_written_lex rows keys hrows
      rw [String.toList_append]
      exact lexes_around _ ") DO UPDATE SET ".toList _ _
        [.special ')', key "do", key "update", key "set"] _ hkeyNames (by decide) hlex
    · have hnothing := lexes_word "NOTHING".toList (by decide)
      exact lexes_around _ ") DO ".toList _ _ [.special ')', key "do"] _ hkeyNames (by decide) hnothing
  apply lex_text
  have hpieces : (UpsertStatement.genStr table rows keys).toList =
      "INSERT INTO ".toList ++ (table.toList ++ (" (".toList ++ ((",".intercalate rows).toList ++
        (") VALUES (".toList ++
        ((",".intercalate ((List.range rows.length).map SinkStatements.param)).toList ++
        (") ON CONFLICT (".toList ++ (", ".intercalate keys ++
          if rows.length ≠ keys.length then
            ") DO UPDATE SET " ++ UpsertStatement.assignments rows keys
          else ") DO NOTHING").toList)))))) := by
    have hconflict : ") ON CONFLICT (" = ")" ++ " ON CONFLICT (" := rfl
    rw [StatementTexts.genStr_lists, hconflict]
    simp only [String.toList_append, List.append_assoc]
  rw [hpieces]
  apply lexes_first _ _ _ _ (by decide)
  apply lexes_around _ " (".toList _ _ _ _ (name_lexes table htable) (by decide)
  apply lexes_around _ ") VALUES (".toList _ _ _ _ (names_lexes "," (by decide) rows hrows)
    (by decide)
  exact lexes_around _ ") ON CONFLICT (".toList _ _ _ _ (params_lexes rows.length) (by decide) haction

def numbered (keys : List String) : List (String × ℕ) := keys.zipIdx.map (fun (k, i) => (k, i + 1))

theorem condition_lexes (k : String) (i : ℕ) (h : isPlain k.toList = true) :
    Lexes (k ++ " = " ++ SinkStatements.param i).toList (conditionToks (k, i + 1)) := by
  rw [String.toList_append, String.toList_append, List.append_assoc]
  exact lexes_around _ " = ".toList _ [name k] [.special '='] _ (name_lexes k h) (by decide)
    (param_lexes i)

theorem delete_lex (table : String) (keys : List String) (htable : isPlain table.toList = true)
    (hkeys : ∀ x ∈ keys, isPlain x.toList = true) :
    lex .between (DeleteStatement.genStr table keys).toList =
      some ([key "delete", key "from"] ++ ([name table] ++ ([key "where"] ++
        [key "and"].intercalate ((numbered keys).map conditionToks)))) := by
  have hconditions : Lexes (" AND ".intercalate (DeleteBinding.condition keys)).toList
      ([key "and"].intercalate ((numbered keys).map conditionToks)) := by
    rw [String.toList_intercalate, DeleteBinding.condition, List.map_map, numbered, List.map_map]
    apply lexes_separated _ _ " AND ".toList [key "and"] (by decide)
    rintro ⟨k, i⟩ hmem
    exact condition_lexes k i (hkeys k (List.fst_mem_of_mem_zipIdx hmem))
  apply lex_text
  rw [DeleteBinding.delete_text]
  simp only [String.toList_append, List.append_assoc]
  apply lexes_first _ _ _ _ (by decide)
  exact lexes_around _ " WHERE ".toList _ _ _ _ (name_lexes table htable) (by decide) hconditions

end Text

section Quotes

theorem nameCount_append (x y : String) : nameCount (x ++ y) = nameCount x + nameCount y := by
  rw [nameCount, String.toList_append, List.count_append, nameCount, nameCount]

theorem nameCount_intercalate (sep : String) (hsep : nameCount sep = 0) (xs : List String) :
    nameCount (sep.intercalate xs) = (xs.map nameCount).sum := by
  induction xs with
  | nil => rw [String.intercalate_nil]; rfl
  | cons x xs ih =>
    cases xs with
    | nil => rw [String.intercalate_singleton, List.map_singleton, List.sum_singleton]
    | cons y ys =>
      rw [String.intercalate_cons_cons, nameCount_append, nameCount_append, ih, hsep, Nat.add_zero]
      simp only [List.map_cons, List.sum_cons]

theorem param_count (n : ℕ) : nameCount (SinkStatements.param n) = 0 := by
  apply List.count_eq_zero_of_not_mem
  rw [param_text, List.mem_cons]
  rintro (h | h)
  · cases h
  · exact absurd (Nat.isDigit_of_mem_toDigits (by decide) (by decide) h) (by decide)

theorem params_count (n : ℕ) :
    nameCount (",".intercalate ((List.range n).map SinkStatements.param)) = 0 := by
  rw [nameCount_intercalate "," rfl, List.map_map, List.sum_eq_zero]
  simp only [List.mem_map, Function.comp_apply, param_count]
  rintro _ ⟨_, _, rfl⟩
  rfl

theorem assignments_count (rows keys : List String) :
    nameCount (UpsertStatement.assignments rows keys) =
      (((updated rows keys).flatMap (fun c => [c, c])).map nameCount).sum := by
  have hlast : nameCount (if lastIsKey rows keys && !(updated rows keys).isEmpty then "," else "") =
      0 := by
    split_ifs <;> rfl
  rw [assignments_written, nameCount_append, hlast, nameCount_intercalate "," rfl, Nat.add_zero]
  induction updated rows keys with
  | nil => rfl
  | cons c cs ih =>
    have hfixed : nameCount " = EXCLUDED." = 0 := rfl
    rw [List.map_cons, List.map_cons, List.sum_cons, ih, assignmentText, nameCount_append,
      nameCount_append, hfixed, List.flatMap_cons, List.map_append, List.sum_append]
    simp

end Quotes

section Meant

/-- The upsert that is meant: every column is inserted, the keys are the
conflict target, and the other columns are replaced. -/
def upsertOf (table : String) (rows keys : List String) : SqlReader.Statement :=
  .upsert table rows ((List.range rows.length).map (· + 1)) keys
    (if rows.length ≠ keys.length then some ((updated rows keys).map (fun c => (c, c))) else none)

def deleteOf (table : String) (keys : List String) : SqlReader.Statement := .delete table (numbered keys)

theorem genStr_count (table : String) (rows keys : List String) :
    nameCount (UpsertStatement.genStr table rows keys) =
      ((upsertOf table rows keys).names.map nameCount).sum := by
  have hupdates : (updated rows keys).flatMap (fun c => [c, c]) =
      ((updated rows keys).map (fun c => (c, c))).flatMap (fun p => [p.1, p.2]) := by
    rw [List.flatMap_map]
  have hfixed : nameCount "INSERT INTO " = 0 ∧ nameCount " (" = 0 ∧ nameCount ") VALUES (" = 0 ∧
      nameCount ")" = 0 ∧ nameCount " ON CONFLICT (" = 0 ∧ nameCount ") DO UPDATE SET " = 0 ∧
      nameCount ") DO NOTHING" = 0 := by
    decide
  rw [StatementTexts.genStr_lists, upsertOf, Statement.names]
  simp only [nameCount_append, nameCount_intercalate "," rfl rows, nameCount_intercalate ", " rfl keys,
    params_count, hfixed, List.map_append, List.sum_append]
  split_ifs
  · rw [nameCount_append, assignments_count, hupdates]
    simp only [hfixed, Statement.updated, List.map_cons, List.map_nil, List.sum_singleton]
    omega
  · simp only [hfixed, Statement.updated, List.map_cons, List.map_nil, List.sum_singleton,
      List.flatMap_nil, List.sum_nil]
    omega

theorem separated_trailing {α : Type} (sep : α) (used : List (List α)) (h : used ≠ []) :
    [sep].intercalate used ++ [sep] = used.flatMap (· ++ [sep]) := by
  induction used with
  | nil => exact absurd rfl h
  | cons u used ih =>
    cases used with
    | nil => rw [List.intercalate_singleton, List.flatMap_singleton]
    | cons v used =>
      rw [List.intercalate_cons_cons, List.flatMap_cons, ← ih (List.cons_ne_nil v used)]
      simp only [List.append_assoc]

theorem last_updated (rows keys : List String) (hrows : rows ≠ []) (h : lastIsKey rows keys = false) :
    updated rows keys ≠ [] := by
  rw [lastIsKey, List.getLast?_eq_some_getLast hrows, Option.any_some] at h
  have hmem : rows.getLast hrows ∈ updated rows keys := by
    rw [updated, List.mem_filter, h]
    exact ⟨List.getLast_mem hrows, rfl⟩
  exact List.ne_nil_of_mem hmem

theorem action_key_last (reserved : String → Bool) (rows keys : List String)
    (hrows : ∀ x ∈ rows, reserved x = false) (h : lastIsKey rows keys = true) :
    action reserved ([key "update", key "set"] ++ assignmentsToks rows keys) = none := by
  have htrailing := updates_trailing (updated rows keys)
    (fun x hx => hrows x (List.mem_of_mem_filter hx))
  have htoks : assignmentsToks rows keys =
      (updated rows keys).flatMap (fun x => assignmentToks x ++ [comma]) := by
    rw [assignmentsToks, h, Bool.true_and]
    cases hupdated : updated rows keys with
    | nil => rfl
    | cons x xs =>
      show [comma].intercalate ((x::xs).map assignmentToks) ++ [comma] = _
      rw [separated_trailing comma _ (by simp), List.flatMap_map]
  rw [htoks, htrailing]

theorem action_reads (reserved : String → Bool) (rows keys : List String)
    (hsome : rows ≠ []) (hrows : ∀ x ∈ rows, reserved x = false) (h : lastIsKey rows keys = false) :
    action reserved ([key "update", key "set"] ++ assignmentsToks rows keys) =
      some (some ((updated rows keys).map (fun x => (x, x))), []) := by
  have htoks : assignmentsToks rows keys =
      [comma].intercalate ((updated rows keys).map assignmentToks) := by
    rw [assignmentsToks, h]
    exact List.append_nil _
  rw [htoks]
  exact updates_read (updated rows keys) (fun x hx => hrows x (List.mem_of_mem_filter hx))
    (last_updated rows keys hsome h)

theorem read_upsert (reserved : String → Bool) (table : String) (rows keys : List String)
    (hrows : rows ≠ []) (hkeys : keys ≠ [])
    (h : ∀ x ∈ table :: (rows ++ keys), isPlain x.toList = true ∧ reserved x = false) :
    read reserved (UpsertStatement.genStr table rows keys) =
      if rows.length = keys.length ∨ lastIsKey rows keys = false then
        some (upsertOf table rows keys)
      else none := by
  rw [List.forall_mem_cons, List.forall_mem_append] at h
  obtain ⟨htable, hrow, hkey⟩ := h
  have hvalues : (List.range rows.length).map (· + 1) ≠ [] := by
    simpa using hrows
  have hlex := upsert_lex table rows keys htable.1 (fun x hx => (hrow x hx).1)
    (fun x hx => (hkey x hx).1)
  have hwritten := upsertStatement_written table rows ((List.range rows.length).map (· + 1)) keys
    htable.2 (fun x hx => (hrow x hx).2) (fun x hx => (hkey x hx).2) hrows hvalues hkeys
    (actionToks rows keys)
  rw [SqlReader.read, hlex, Option.bind_some]
  refine (statement_upsert _).trans (hwritten.trans ?_)
  rw [actionToks, upsertOf]
  by_cases hcount : rows.length = keys.length
  · rw [if_neg (not_not.mpr hcount), if_pos (Or.inl hcount), if_neg (not_not.mpr hcount),
      action_nothing]
    rfl
  · rw [if_pos hcount, if_pos hcount]
    cases hlast : lastIsKey rows keys with
    | false =>
      rw [action_reads reserved rows keys hrows (fun x hx => (hrow x hx).2) hlast,
        if_pos (Or.inr rfl)]
      rfl
    | true =>
      rw [action_key_last reserved rows keys (fun x hx => (hrow x hx).2) hlast, if_neg]
      · rfl
      · rintro (heq | hfalse)
        · exact hcount heq
        · cases hfalse

theorem read_delete (reserved : String → Bool) (table : String) (keys : List String)
    (hkeys : keys ≠ []) (htable : isPlain table.toList = true ∧ reserved table = false)
    (h : ∀ x ∈ keys, isPlain x.toList = true ∧ reserved x = false) :
    read reserved (DeleteStatement.genStr table keys) = some (deleteOf table keys) := by
  have hnumbered : ∀ p ∈ numbered keys, reserved p.1 = false := by
    rw [numbered, List.forall_mem_map]
    rintro ⟨k, i⟩ hmem
    exact (h k (List.fst_mem_of_mem_zipIdx hmem)).2
  have hlex := delete_lex table keys htable.1 (fun x hx => (h x hx).1)
  have hwritten := deleteStatement_written table (numbered keys) htable.2 hnumbered
    (by simpa [numbered] using hkeys)
  rw [SqlReader.read, hlex, Option.bind_some]
  exact (statement_delete _).trans hwritten

/-- For every table and every non-empty list of columns: Postgres reads the
two statements that are meant, with the given names, exactly when each name is
plain and not reserved, there is a key, and either every column is counted as
a key or the last column is none. -/
theorem names_exact_iff (reserved : String → Bool) (table : String) (rows keys : List String)
    (hrows : rows ≠ []) :
    (read reserved (UpsertStatement.genStr table rows keys) = some (upsertOf table rows keys) ∧
        read reserved (DeleteStatement.genStr table keys) = some (deleteOf table keys)) ↔
      (∀ x ∈ table :: (rows ++ keys), isPlain x.toList = true ∧ reserved x = false) ∧ keys ≠ [] ∧
        (rows.length = keys.length ∨ lastIsKey rows keys = false) := by
  constructor
  · rintro ⟨hupsert, _⟩
    have hplain : ∀ x ∈ table :: (rows ++ keys), isPlain x.toList = true ∧ reserved x = false := by
      intro x hx
      apply read_plain _ _ hupsert (genStr_count table rows keys).le x
      rw [upsertOf, Statement.colIds]
      exact List.mem_append_left _ hx
    have hkeys : keys ≠ [] := read_conflict _ table rows _ keys _ hupsert
    refine ⟨hplain, hkeys, ?_⟩
    by_contra hcomma
    rw [read_upsert reserved table rows keys hrows hkeys hplain, if_neg hcomma] at hupsert
    cases hupsert
  · rintro ⟨hplain, hkeys, hlast⟩
    have hdelete := hplain
    rw [List.forall_mem_cons, List.forall_mem_append] at hdelete
    constructor
    · rw [read_upsert reserved table rows keys hrows hkeys hplain, if_pos hlast]
    · exact read_delete reserved table keys hkeys hdelete.1 hdelete.2.2

/-- A table with a capital in its name is read as another one, and a name
with a statement in it takes the place of the statement that is meant. -/
theorem other_statements :
    SqlReader.read (fun _ => false) (UpsertStatement.genStr "Users" ["id", "name"] ["id"]) =
        some (upsertOf "users" ["id", "name"] ["id"]) ∧
      upsertOf "users" ["id", "name"] ["id"] ≠ upsertOf "Users" ["id", "name"] ["id"] ∧
      SqlReader.read (fun _ => false)
          (DeleteStatement.genStr "accounts WHERE id = $1; -- " ["id", "name"]) =
        some (deleteOf "accounts" ["id"]) := by
  decide +kernel

theorem users_names :
    SqlReader.read (fun w => w = "user") (UpsertStatement.genStr "users" ["id", "name"] ["id"]) =
        some (upsertOf "users" ["id", "name"] ["id"]) ∧
      SqlReader.read (fun w => w = "user") (DeleteStatement.genStr "users" ["id"]) =
        some (deleteOf "users" ["id"]) :=
  (names_exact_iff (fun w => w = "user") "users" ["id", "name"] ["id"] (by decide)).mpr
    (by decide +kernel)

end Meant

end CDC.StatementNames
