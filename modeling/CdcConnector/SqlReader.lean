import Mathlib.Data.List.Forall2
import CdcConnector.SqlLexer

/-!
# Reading one statement

The grammar of an upsert and of a delete by equalities, over the tokens of a
text. Which words are reserved is a parameter: a reserved word names nothing
unless it is quoted. What is read is determined by the text, and every name
read is one of its tokens.
-/

set_option autoImplicit false

namespace CDC.SqlReader
open CDC.SqlLexer

inductive Statement where
  | upsert (table : String) (columns : List String) (values : List ℕ) (conflict : List String)
      (update : Option (List (String × String)))
  | delete (table : String) (conditions : List (String × ℕ))
  deriving DecidableEq

def Statement.table : Statement → String
  | upsert table _ _ _ _ => table
  | delete table _ => table

def skip : List Token → List Token → Option (List Token)
  | [], toks => some toks
  | _::_, [] => none
  | p::ps, t::toks => if p = t then skip ps toks else none

theorem skip_iff (ps toks rest : List Token) : skip ps toks = some rest ↔ toks = ps ++ rest := by
  induction ps generalizing toks with
  | nil => simp [skip]
  | cons p ps ih =>
    cases toks with
    | nil => simp [skip]
    | cons t toks =>
      rw [skip]
      split_ifs with h
      · rw [ih, h, List.cons_append, List.cons.injEq]
        simp
      · simp only [List.cons_append, List.cons.injEq, false_iff, not_and]
        intro heq
        exact absurd heq.symm h

section Separated
variable {α : Type} (item : List Token → Option (α × List Token)) (sep : Token)

def sepBy : ℕ → List Token → Option (List α × List Token)
  | 0, _ => none
  | fuel+1, toks => do
    let (x, rest) ← item toks
    match rest with
    | [] => return ([x], [])
    | t::rest =>
      if t = sep then
        let (xs, rest) ← sepBy fuel rest
        return (x::xs, rest)
      else return ([x], t::rest)

def Reads (I : α → List Token → Prop) : Prop :=
  ∀ toks x rest, item toks = some (x, rest) ↔ ∃ used, toks = used ++ rest ∧ I x used

variable {item} {I : α → List Token → Prop}

theorem reads_append (hitem : Reads item I) (x : α) (used rest : List Token) (h : I x used) :
    item (used ++ rest) = some (x, rest) :=
  (hitem _ _ _).mpr ⟨used, rfl, h⟩

theorem sepBy_sound (hitem : Reads item I) (fuel : ℕ) (toks rest : List Token) (xs : List α)
    (h : sepBy item sep fuel toks = some (xs, rest)) :
    ∃ used, List.Forall₂ I xs used ∧ xs ≠ [] ∧ toks = [sep].intercalate used ++ rest := by
  induction fuel generalizing toks xs with
  | zero => cases h
  | succ fuel ih =>
    simp only [sepBy, Option.bind_eq_bind, Option.bind_eq_some_iff] at h
    obtain ⟨⟨x, middle⟩, hx, h⟩ := h
    obtain ⟨first, rfl, hfirst⟩ := (hitem _ _ _).mp hx
    cases middle with
    | nil =>
      cases h
      exact ⟨[first], .cons hfirst .nil, by simp, by simp⟩
    | cons t middle =>
      dsimp only at h
      split_ifs at h with hsep
      · simp only [Option.bind_eq_some_iff] at h
        obtain ⟨⟨later, last⟩, hlater, h⟩ := h
        cases h
        obtain ⟨used, hused, hne, rfl⟩ := ih middle later hlater
        refine ⟨first::used, .cons hfirst hused, by simp, ?_⟩
        cases hused with
        | nil => exact absurd rfl hne
        | cons hnext hmore => simp [hsep, List.intercalate_cons_cons]
      · cases h
        exact ⟨[first], .cons hfirst .nil, by simp, by simp⟩

theorem sepBy_complete (hitem : Reads item I) (fuel : ℕ) (rest : List Token) (xs : List α)
    (used : List (List Token)) (hused : List.Forall₂ I xs used) (hne : xs ≠ [])
    (hfuel : xs.length ≤ fuel) (hrest : rest.head? ≠ some sep) :
    sepBy item sep fuel ([sep].intercalate used ++ rest) = some (xs, rest) := by
  induction hused generalizing fuel with
  | nil => exact absurd rfl hne
  | @cons x first xs used hfirst hmore ih =>
    obtain ⟨fuel, rfl⟩ : ∃ n, fuel = n + 1 := ⟨fuel - 1, by rw [List.length_cons] at hfuel; omega⟩
    cases hmore with
    | nil =>
      have hx := reads_append hitem x first rest hfirst
      rw [List.intercalate_singleton, sepBy, hx]
      cases rest with
      | nil => rfl
      | cons t rest =>
        have ht : t ≠ sep := fun heq => hrest (by rw [heq]; rfl)
        show (if t = sep then _ else _) = _
        rw [if_neg ht]
        rfl
    | @cons y next xs used hnext hmore =>
      have hlater := ih fuel (List.cons_ne_nil y xs) (by rw [List.length_cons] at hfuel; omega)
      have hx := reads_append hitem x first (sep :: ([sep].intercalate (next::used) ++ rest)) hfirst
      rw [List.intercalate_cons_cons, List.append_assoc, List.append_assoc, List.singleton_append,
        sepBy, hx]
      show (if sep = sep then _ else _) = _
      rw [if_pos rfl, hlater]
      rfl

theorem sepBy_trailing (hitem : Reads item I) (hnone : item [] = none) (fuel : ℕ) (xs : List α)
    (used : List (List Token)) (hused : List.Forall₂ I xs used) :
    sepBy item sep fuel (used.flatMap (· ++ [sep])) = none := by
  induction hused generalizing fuel with
  | nil =>
    cases fuel with
    | zero => rfl
    | succ fuel => rw [List.flatMap_nil, sepBy, hnone]; rfl
  | @cons x first xs used hfirst _ ih =>
    cases fuel with
    | zero => rfl
    | succ fuel =>
      have hx := reads_append hitem x first (sep :: used.flatMap (· ++ [sep])) hfirst
      rw [List.flatMap_cons, List.append_assoc, List.singleton_append, sepBy, hx]
      show (if sep = sep then _ else _) = _
      rw [if_pos rfl, ih fuel]
      rfl

end Separated

section Grammar
variable (reserved : String → Bool)

def comma : Token := .special ','

def key (word : String) : Token := .ident word.toList false

def colId : List Token → Option (String × List Token)
  | .ident name quoted :: rest =>
    if quoted = false ∧ reserved (String.ofList name) = true then none
    else some (String.ofList name, rest)
  | _ => none

/-- Behind a dot any word may stand. -/
def label : List Token → Option (String × List Token)
  | .ident name _ :: rest => some (String.ofList name, rest)
  | _ => none

def param : List Token → Option (ℕ × List Token)
  | .param n :: rest => some (n, rest)
  | _ => none

def assignment (toks : List Token) : Option ((String × String) × List Token) := do
  let (x, rest) ← colId reserved toks
  let rest ← skip [.special '='] rest
  let (source, rest) ← label rest
  if source = "excluded" then
    let rest ← skip [.special '.'] rest
    let (y, rest) ← label rest
    return ((x, y), rest)
  else none

def condition (toks : List Token) : Option ((String × ℕ) × List Token) := do
  let (x, rest) ← colId reserved toks
  let rest ← skip [.special '='] rest
  let (n, rest) ← param rest
  return ((x, n), rest)

def action (toks : List Token) : Option (Option (List (String × String)) × List Token) :=
  match skip [key "nothing"] toks with
  | some rest => some (none, rest)
  | none => do
    let rest ← skip [key "update", key "set"] toks
    let (update, rest) ← sepBy (assignment reserved) comma rest.length rest
    return (some update, rest)

def ended (toks : List Token) : Bool := toks.all (· = .special ';')

def upsertStatement (toks : List Token) : Option Statement := do
  let rest ← skip [key "insert", key "into"] toks
  let (table, rest) ← colId reserved rest
  let rest ← skip [.special '('] rest
  let (columns, rest) ← sepBy (colId reserved) comma rest.length rest
  let rest ← skip [.special ')', key "values", .special '('] rest
  let (values, rest) ← sepBy param comma rest.length rest
  let rest ← skip [.special ')', key "on", key "conflict", .special '('] rest
  let (conflict, rest) ← sepBy (colId reserved) comma rest.length rest
  let rest ← skip [.special ')', key "do"] rest
  let (update, rest) ← action reserved rest
  if ended rest then return .upsert table columns values conflict update else none

def deleteStatement (toks : List Token) : Option Statement := do
  let rest ← skip [key "delete", key "from"] toks
  let (table, rest) ← colId reserved rest
  let rest ← skip [key "where"] rest
  let (conditions, rest) ← sepBy (condition reserved) (key "and") rest.length rest
  if ended rest then return .delete table conditions else none

def statement (toks : List Token) : Option Statement :=
  match upsertStatement reserved toks with
  | some s => some s
  | none => deleteStatement reserved toks

def read (text : String) : Option Statement := (lex .between text.toList).bind (statement reserved)

def IsColId (x : String) (used : List Token) : Prop :=
  ∃ quoted, used = [.ident x.toList quoted] ∧ (quoted = false → reserved x = false)

def IsLabel (x : String) (used : List Token) : Prop := ∃ quoted, used = [.ident x.toList quoted]

def IsParam (n : ℕ) (used : List Token) : Prop := used = [.param n]

def IsAssignment (p : String × String) (used : List Token) : Prop :=
  ∃ column source label, IsColId reserved p.1 column ∧ IsLabel "excluded" source ∧
    IsLabel p.2 label ∧ used = column ++ .special '=' :: (source ++ .special '.' :: label)

def IsCondition (p : String × ℕ) (used : List Token) : Prop :=
  ∃ column, IsColId reserved p.1 column ∧ used = column ++ [.special '=', .param p.2]

theorem colId_reads : Reads (colId reserved) (IsColId reserved) := by
  intro toks x rest
  constructor
  · intro h
    unfold colId at h
    split at h
    · rename_i name quoted tail
      split_ifs at h with hreserved
      cases h
      refine ⟨[.ident name quoted], rfl, quoted, by rw [String.toList_ofList], ?_⟩
      intro hunquoted
      simpa [hunquoted] using hreserved
    · cases h
  · rintro ⟨used, rfl, quoted, rfl, hreserved⟩
    rw [List.singleton_append, colId, String.ofList_toList, if_neg]
    rintro ⟨hunquoted, hyes⟩
    rw [hreserved hunquoted] at hyes
    cases hyes

theorem label_reads : Reads label IsLabel := by
  intro toks x rest
  constructor
  · intro h
    unfold label at h
    split at h
    · rename_i name quoted tail
      cases h
      exact ⟨[.ident name quoted], rfl, quoted, by rw [String.toList_ofList]⟩
    · cases h
  · rintro ⟨used, rfl, quoted, rfl⟩
    rw [List.singleton_append, label, String.ofList_toList]

theorem param_reads : Reads param IsParam := by
  intro toks n rest
  constructor
  · intro h
    unfold param at h
    split at h
    · cases h
      exact ⟨_, rfl, rfl⟩
    · cases h
  · rintro ⟨used, rfl, rfl⟩
    rfl

theorem assignment_reads : Reads (assignment reserved) (IsAssignment reserved) := by
  intro toks p rest
  constructor
  · intro h
    simp only [assignment, Option.bind_eq_bind, Option.bind_eq_some_iff, skip_iff] at h
    obtain ⟨⟨x, t1⟩, hx, t2, rfl, ⟨source, t3⟩, hsource, h⟩ := h
    dsimp only at h
    split_ifs at h with hexcluded
    simp only [Option.bind_eq_some_iff, skip_iff] at h
    obtain ⟨t4, rfl, ⟨y, t5⟩, hy, h⟩ := h
    cases h
    obtain ⟨column, rfl, hcolumn⟩ := (colId_reads reserved _ _ _).mp hx
    obtain ⟨first, rfl, hfirst⟩ := (label_reads _ _ _).mp hsource
    obtain ⟨last, rfl, hlast⟩ := (label_reads _ _ _).mp hy
    rw [hexcluded] at hfirst
    exact ⟨_, by simp, column, first, last, hcolumn, hfirst, hlast, rfl⟩
  · rintro ⟨used, rfl, column, source, last, hcolumn, hsource, hlast, rfl⟩
    have hx := reads_append (colId_reads reserved) p.1 column
    have hs := reads_append label_reads "excluded" source
    have hy := reads_append label_reads p.2 last rest hlast
    simp only [assignment, List.append_assoc, List.cons_append, hx _ hcolumn, Option.bind_eq_bind,
      Option.bind_some, skip, if_true, hs _ hsource, hy]
    rfl

theorem condition_reads : Reads (condition reserved) (IsCondition reserved) := by
  intro toks p rest
  constructor
  · intro h
    simp only [condition, Option.bind_eq_bind, Option.bind_eq_some_iff, skip_iff] at h
    obtain ⟨⟨x, t1⟩, hx, t2, rfl, ⟨n, t3⟩, hn, h⟩ := h
    cases h
    obtain ⟨column, rfl, hcolumn⟩ := (colId_reads reserved _ _ _).mp hx
    obtain ⟨used, rfl, hused⟩ := (param_reads _ _ _).mp hn
    cases hused
    exact ⟨_, by simp, column, hcolumn, rfl⟩
  · rintro ⟨used, rfl, column, hcolumn, rfl⟩
    have hx := reads_append (colId_reads reserved) p.1 column
    simp only [condition, List.append_assoc, List.cons_append, hx _ hcolumn, Option.bind_eq_bind,
      Option.bind_some, skip, if_true]
    rfl

end Grammar

section Written
variable {reserved : String → Bool}

def name (x : String) : Token := .ident x.toList false

theorem skip_append (ps rest : List Token) : skip ps (ps ++ rest) = some rest :=
  (skip_iff ps _ rest).mpr rfl

theorem colId_name (x : String) (rest : List Token) (h : reserved x = false) :
    colId reserved ([name x] ++ rest) = some (x, rest) :=
  reads_append (colId_reads reserved) x [name x] rest ⟨false, rfl, fun _ => h⟩

theorem length_le_intercalate (sep : Token) (used : List (List Token)) (h : ∀ u ∈ used, u ≠ []) :
    used.length ≤ ([sep].intercalate used).length := by
  induction used with
  | nil => exact Nat.zero_le _
  | cons u used ih =>
    rw [List.forall_mem_cons] at h
    have hu := List.length_pos_iff.mpr h.1
    cases used with
    | nil =>
      rw [List.intercalate_singleton, List.length_singleton]
      exact hu
    | cons v used =>
      have hmore := ih h.2
      rw [List.intercalate_cons_cons, List.length_append, List.length_append, List.length_cons]
      omega

theorem sepBy_written {α : Type} {item : List Token → Option (α × List Token)}
    {I : α → List Token → Prop} (hitem : Reads item I) (sep : Token) (toks : α → List Token)
    (xs : List α) (hxs : ∀ x ∈ xs, I x (toks x)) (hsome : ∀ x ∈ xs, toks x ≠ []) (hne : xs ≠ [])
    (rest : List Token) (hrest : rest.head? ≠ some sep) :
    sepBy item sep ([sep].intercalate (xs.map toks) ++ rest).length
      ([sep].intercalate (xs.map toks) ++ rest) = some (xs, rest) := by
  have hlen := length_le_intercalate sep (xs.map toks)
    (by simpa only [List.forall_mem_map] using hsome)
  apply sepBy_complete sep hitem _ rest xs
  · rw [List.forall₂_map_right_iff, List.forall₂_same]
    exact hxs
  · exact hne
  · rw [List.length_map] at hlen
    rw [List.length_append]
    omega
  · exact hrest

def names (xs : List String) : List Token := [comma].intercalate (xs.map (fun x => [name x]))

theorem names_read (xs : List String) (h : ∀ x ∈ xs, reserved x = false) (hne : xs ≠ [])
    (rest : List Token) (hrest : rest.head? ≠ some comma) :
    sepBy (colId reserved) comma (names xs ++ rest).length (names xs ++ rest) = some (xs, rest) :=
  sepBy_written (colId_reads reserved) comma (fun x => [name x]) xs
    (fun x hx => ⟨false, rfl, fun _ => h x hx⟩) (by simp) hne rest hrest

def params (ns : List ℕ) : List Token := [comma].intercalate (ns.map (fun n => [.param n]))

theorem params_read (ns : List ℕ) (hne : ns ≠ []) (rest : List Token)
    (hrest : rest.head? ≠ some comma) :
    sepBy param comma (params ns ++ rest).length (params ns ++ rest) = some (ns, rest) :=
  sepBy_written param_reads comma (fun n => [.param n]) ns (fun _ _ => rfl) (by simp) hne rest hrest

def assignmentToks (x : String) : List Token :=
  [name x, .special '=', key "excluded", .special '.', name x]

theorem assignmentToks_is (x : String) (h : reserved x = false) :
    IsAssignment reserved (x, x) (assignmentToks x) :=
  ⟨[name x], [key "excluded"], [name x], ⟨false, rfl, fun _ => h⟩, ⟨false, rfl⟩, ⟨false, rfl⟩, rfl⟩

def conditionToks (p : String × ℕ) : List Token := [name p.1, .special '=', .param p.2]

theorem conditionToks_is (p : String × ℕ) (h : reserved p.1 = false) :
    IsCondition reserved p (conditionToks p) :=
  ⟨[name p.1], ⟨false, rfl, fun _ => h⟩, rfl⟩

theorem upsertStatement_written (table : String) (columns : List String) (values : List ℕ)
    (conflict : List String) (htable : reserved table = false)
    (hcolumns : ∀ x ∈ columns, reserved x = false) (hconflict : ∀ x ∈ conflict, reserved x = false)
    (hcolumn : columns ≠ []) (hvalue : values ≠ []) (hkey : conflict ≠ []) (toks : List Token) :
    upsertStatement reserved ([key "insert", key "into"] ++ ([name table] ++ ([.special '('] ++
        (names columns ++ ([.special ')', key "values", .special '('] ++ (params values ++
        ([.special ')', key "on", key "conflict", .special '('] ++ (names conflict ++
        ([.special ')', key "do"] ++ toks))))))))) =
      (action reserved toks).bind (fun (update, rest) =>
        if ended rest then some (.upsert table columns values conflict update) else none) := by
  simp only [upsertStatement, skip_append, Option.bind_eq_bind, Option.bind_some,
    colId_name table _ htable]
  rw [names_read columns hcolumns hcolumn _ (by simp [comma]), Option.bind_some]
  dsimp only
  rw [skip_append, Option.bind_some, params_read values hvalue _ (by simp [comma]), Option.bind_some]
  dsimp only
  rw [skip_append, Option.bind_some, names_read conflict hconflict hkey _ (by simp [comma]),
    Option.bind_some]
  dsimp only
  rw [skip_append, Option.bind_some]
  rfl

theorem action_nothing : action reserved [key "nothing"] = some (none, []) := rfl

theorem action_set (toks : List Token) :
    action reserved ([key "update", key "set"] ++ toks) =
      (sepBy (assignment reserved) comma toks.length toks).map (fun (update, rest) =>
        (some update, rest)) := by
  have hother : skip [key "nothing"] ([key "update", key "set"] ++ toks) = none := rfl
  rw [action, hother]
  dsimp only
  rw [skip_append]
  show (sepBy (assignment reserved) comma toks.length toks).bind _ = _
  cases sepBy (assignment reserved) comma toks.length toks <;> rfl

theorem updates_read (xs : List String) (h : ∀ x ∈ xs, reserved x = false) (hne : xs ≠ []) :
    action reserved ([key "update", key "set"] ++ [comma].intercalate (xs.map assignmentToks)) =
      some (some (xs.map (fun x => (x, x))), []) := by
  have hitems := sepBy_written (assignment_reads reserved) comma (fun p => assignmentToks p.1)
    (xs.map (fun x => (x, x))) (by simpa using fun x hx => assignmentToks_is x (h x hx))
    (by simp [assignmentToks]) (by simpa using hne) [] (by decide)
  rw [List.append_nil, List.map_map] at hitems
  rw [action_set]
  exact congrArg (Option.map _) hitems

theorem updates_trailing (xs : List String) (h : ∀ x ∈ xs, reserved x = false) :
    action reserved ([key "update", key "set"] ++ xs.flatMap (fun x => assignmentToks x ++ [comma])) =
      none := by
  have hitems := sepBy_trailing comma (assignment_reads reserved) rfl
    (xs.flatMap (fun x => assignmentToks x ++ [comma])).length (xs.map (fun x => (x, x)))
    (xs.map assignmentToks) (by
      rw [List.forall₂_map_left_iff, List.forall₂_map_right_iff, List.forall₂_same]
      exact fun x hx => assignmentToks_is x (h x hx))
  rw [List.flatMap_map] at hitems
  rw [action_set, hitems]
  rfl

theorem deleteStatement_written (table : String) (conditions : List (String × ℕ))
    (htable : reserved table = false) (h : ∀ p ∈ conditions, reserved p.1 = false)
    (hne : conditions ≠ []) :
    deleteStatement reserved ([key "delete", key "from"] ++ ([name table] ++ ([key "where"] ++
        [key "and"].intercalate (conditions.map conditionToks)))) =
      some (.delete table conditions) := by
  have hitems := sepBy_written (condition_reads reserved) (key "and") conditionToks conditions
    (fun p hp => conditionToks_is p (h p hp)) (by simp [conditionToks]) hne [] (by decide)
  rw [List.append_nil] at hitems
  simp only [deleteStatement, skip_append, Option.bind_eq_bind, Option.bind_some,
    colId_name table _ htable]
  rw [hitems]
  rfl

theorem statement_delete (toks : List Token) :
    statement reserved (key "delete" :: toks) = deleteStatement reserved (key "delete" :: toks) := by
  have hother : upsertStatement reserved (key "delete" :: toks) = none := rfl
  rw [statement, hother]

theorem statement_upsert (toks : List Token) :
    statement reserved (key "insert" :: toks) = upsertStatement reserved (key "insert" :: toks) := by
  have hother : deleteStatement reserved (key "insert" :: toks) = none := rfl
  rw [statement, hother]
  cases upsertStatement reserved (key "insert" :: toks) <;> rfl

end Written

section Names
variable (reserved : String → Bool)

def nameCount (x : String) : ℕ := x.toList.count '"'

/-- The names written in these tokens, and those of them that name a table or
a column. -/
def Bears (names colIds : List String) (toks : List Token) : Prop :=
  nameQuotes toks = (names.map nameCount).sum ∧
    ∀ x ∈ colIds, ∃ quoted, .ident x.toList quoted ∈ toks ∧ (quoted = false → reserved x = false)

variable {reserved}

theorem bears_append {names names' colIds colIds' : List String} {xs ys : List Token}
    (hx : Bears reserved names colIds xs) (hy : Bears reserved names' colIds' ys) :
    Bears reserved (names ++ names') (colIds ++ colIds') (xs ++ ys) := by
  constructor
  · rw [nameQuotes_append, hx.1, hy.1, List.map_append, List.sum_append]
  · intro x hmem
    rcases List.mem_append.mp hmem with hmem | hmem
    · obtain ⟨quoted, htok, hreserved⟩ := hx.2 x hmem
      exact ⟨quoted, List.mem_append_left ys htok, hreserved⟩
    · obtain ⟨quoted, htok, hreserved⟩ := hy.2 x hmem
      exact ⟨quoted, List.mem_append_right xs htok, hreserved⟩

theorem bears_fixed (toks : List Token) (h : nameQuotes toks = 0) : Bears reserved [] [] toks :=
  ⟨h, fun x hx => by cases hx⟩

theorem bears_separated {α : Type} (names colIds : α → List String) (sep : Token)
    (hsep : nameQuotes [sep] = 0) (xs : List α) (used : List (List Token))
    (h : List.Forall₂ (fun x toks => Bears reserved (names x) (colIds x) toks) xs used) :
    Bears reserved (xs.flatMap names) (xs.flatMap colIds) ([sep].intercalate used) := by
  induction h with
  | nil => exact bears_fixed [] rfl
  | @cons x first xs used hfirst hmore ih =>
    rw [List.flatMap_cons, List.flatMap_cons]
    cases hmore with
    | nil =>
      rw [List.intercalate_singleton, List.flatMap_nil, List.flatMap_nil, List.append_nil,
        List.append_nil]
      exact hfirst
    | cons hnext hmore =>
      have hsep := bears_append hfirst (@bears_fixed reserved [sep] hsep)
      rw [List.append_nil, List.append_nil] at hsep
      rw [List.intercalate_cons_cons]
      exact bears_append hsep ih

theorem colId_bears (x : String) (used : List Token) (h : IsColId reserved x used) :
    Bears reserved [x] [x] used := by
  obtain ⟨quoted, rfl, hreserved⟩ := h
  refine ⟨by simp [nameQuotes, Token.nameQuotes, nameCount], ?_⟩
  intro y hy
  rw [List.mem_singleton] at hy
  subst hy
  exact ⟨quoted, List.mem_cons_self, hreserved⟩

theorem label_bears (x : String) (used : List Token) (h : IsLabel x used) :
    Bears reserved [x] [] used := by
  obtain ⟨quoted, rfl⟩ := h
  exact ⟨by simp [nameQuotes, Token.nameQuotes, nameCount], fun y hy => by cases hy⟩

theorem param_bears (n : ℕ) (used : List Token) (h : IsParam n used) : Bears reserved [] [] used := by
  cases h
  exact bears_fixed _ rfl

theorem assignment_bears (p : String × String) (used : List Token)
    (h : IsAssignment reserved p used) : Bears reserved [p.1, p.2] [p.1] used := by
  obtain ⟨column, source, last, hcolumn, ⟨quoted, rfl⟩, hlast, rfl⟩ := h
  have hfixed : nameQuotes [.special '=', .ident "excluded".toList quoted, .special '.'] = 0 := by
    cases quoted <;> decide
  exact bears_append (colId_bears p.1 column hcolumn)
    (bears_append (bears_fixed _ hfixed) (label_bears p.2 last hlast))

theorem condition_bears (p : String × ℕ) (used : List Token) (h : IsCondition reserved p used) :
    Bears reserved [p.1] [p.1] used := by
  obtain ⟨column, hcolumn, rfl⟩ := h
  exact bears_append (colId_bears p.1 column hcolumn) (bears_fixed [.special '=', .param p.2] rfl)

theorem ended_bears (toks : List Token) (h : ended toks = true) : Bears reserved [] [] toks := by
  apply bears_fixed
  induction toks with
  | nil => rfl
  | cons t toks ih =>
    rw [ended, List.all_cons, Bool.and_eq_true, decide_eq_true_eq] at h
    rw [nameQuotes_cons, ih h.2, h.1]
    rfl

namespace Statement

def updated : Option (List (String × String)) → List (String × String)
  | some update => update
  | none => []

def names : Statement → List String
  | upsert table columns _ conflict update =>
    [table] ++ columns ++ conflict ++ (updated update).flatMap (fun p => [p.1, p.2])
  | delete table conditions => [table] ++ conditions.map Prod.fst

def colIds : Statement → List String
  | upsert table columns _ conflict update =>
    [table] ++ columns ++ conflict ++ (updated update).flatMap (fun p => [p.1])
  | delete table conditions => [table] ++ conditions.map Prod.fst

end Statement

theorem colIds_bear (fuel : ℕ) (toks rest : List Token) (xs : List String)
    (h : sepBy (colId reserved) comma fuel toks = some (xs, rest)) :
    ∃ used, toks = used ++ rest ∧ Bears reserved xs xs used ∧ xs ≠ [] := by
  obtain ⟨used, hused, hne, rfl⟩ := sepBy_sound comma (colId_reads reserved) fuel toks rest xs h
  have hbears := @bears_separated reserved String (fun x => [x]) (fun x => [x]) comma rfl xs
    used (hused.imp colId_bears)
  rw [List.flatMap_singleton'] at hbears
  exact ⟨_, rfl, hbears, hne⟩

theorem action_bears (toks rest : List Token) (update : Option (List (String × String)))
    (h : action reserved toks = some (update, rest)) :
    ∃ used, toks = used ++ rest ∧
      Bears reserved ((Statement.updated update).flatMap (fun p => [p.1, p.2]))
        ((Statement.updated update).flatMap (fun p => [p.1])) used := by
  unfold action at h
  split at h
  · rename_i tail hskip
    cases h
    exact ⟨[key "nothing"], (skip_iff _ _ _).mp hskip, bears_fixed _ (by decide)⟩
  · simp only [Option.bind_eq_bind, Option.bind_eq_some_iff, skip_iff] at h
    obtain ⟨tail, rfl, ⟨xs, last⟩, hxs, h⟩ := h
    cases h
    obtain ⟨used, hused, _, rfl⟩ := sepBy_sound comma (assignment_reads reserved) _ _ _ _ hxs
    refine ⟨[key "update", key "set"] ++ [comma].intercalate used, by simp, ?_⟩
    exact bears_append (bears_fixed _ (by decide))
      (bears_separated (fun p : String × String => [p.1, p.2]) (fun p => [p.1]) comma rfl xs used
        (hused.imp assignment_bears))

theorem upsert_bears (toks : List Token) (s : Statement)
    (h : upsertStatement reserved toks = some s) :
    Bears reserved s.names s.colIds toks ∧
      ∃ table columns values conflict update,
        s = .upsert table columns values conflict update ∧ conflict ≠ [] := by
  simp only [upsertStatement, Option.bind_eq_bind, Option.bind_eq_some_iff, skip_iff] at h
  obtain ⟨t1, rfl, ⟨table, t2⟩, htable, t3, rfl, ⟨columns, t4⟩, hcolumns, t5, rfl, ⟨values, t6⟩,
    hvalues, t7, rfl, ⟨conflict, t8⟩, hconflict, t9, rfl, ⟨update, t10⟩, hupdate, h⟩ := h
  dsimp only at htable hcolumns hvalues hconflict hupdate h
  split_ifs at h with hend
  cases h
  obtain ⟨tableToks, rfl, isTable⟩ := (colId_reads reserved _ _ _).mp htable
  obtain ⟨columnToks, rfl, columnsBear, _⟩ := colIds_bear _ _ _ _ hcolumns
  obtain ⟨valueToks, areValues, _, rfl⟩ := sepBy_sound comma param_reads _ _ _ _ hvalues
  obtain ⟨conflictToks, rfl, conflictBears, hsome⟩ := colIds_bear _ _ _ _ hconflict
  obtain ⟨updateToks, rfl, updateBears⟩ := action_bears _ _ _ hupdate
  refine ⟨?_, table, columns, values, conflict, update, rfl, hsome⟩
  have valuesBear := @bears_separated reserved ℕ (fun _ => []) (fun _ => []) comma rfl values
    valueToks (areValues.imp param_bears)
  have hall := bears_append
    (@bears_fixed reserved [key "insert", key "into"] (by decide))
    (bears_append (colId_bears table _ isTable)
      (bears_append (@bears_fixed reserved [.special '('] rfl)
        (bears_append columnsBear
          (bears_append (@bears_fixed reserved [.special ')', key "values", .special '('] (by decide))
            (bears_append valuesBear
              (bears_append
                (@bears_fixed reserved [.special ')', key "on", key "conflict", .special '(']
                  (by decide))
                (bears_append conflictBears
                  (bears_append (@bears_fixed reserved [.special ')', key "do"] (by decide))
                    (bears_append updateBears (ended_bears t10 hend))))))))))
  have hempty : values.flatMap (fun _ => ([] : List String)) = [] := by simp
  rw [hempty] at hall
  simpa only [Statement.names, Statement.colIds, List.nil_append, List.append_nil,
    List.append_assoc] using hall

theorem delete_bears (toks : List Token) (s : Statement)
    (h : deleteStatement reserved toks = some s) :
    Bears reserved s.names s.colIds toks ∧
      ∃ table conditions, s = .delete table conditions ∧ conditions ≠ [] := by
  simp only [deleteStatement, Option.bind_eq_bind, Option.bind_eq_some_iff, skip_iff] at h
  obtain ⟨t1, rfl, ⟨table, t2⟩, htable, t3, rfl, ⟨conditions, t4⟩, hconditions, h⟩ := h
  dsimp only at htable hconditions h
  split_ifs at h with hend
  cases h
  obtain ⟨tableToks, rfl, isTable⟩ := (colId_reads reserved _ _ _).mp htable
  obtain ⟨used, areConditions, hsome, rfl⟩ :=
    sepBy_sound (key "and") (condition_reads reserved) _ _ _ _ hconditions
  refine ⟨?_, table, conditions, rfl, hsome⟩
  have conditionsBear := bears_separated (fun p : String × ℕ => [p.1]) (fun p => [p.1]) (key "and")
    (by decide) conditions used (areConditions.imp condition_bears)
  have hall := bears_append
    (@bears_fixed reserved [key "delete", key "from"] (by decide))
    (bears_append (colId_bears table _ isTable)
      (bears_append (@bears_fixed reserved [key "where"] (by decide))
        (bears_append conditionsBear (ended_bears t4 hend))))
  simpa only [Statement.names, Statement.colIds, List.nil_append, List.append_nil,
    List.append_assoc, List.map_eq_flatMap] using hall

theorem statement_bears (toks : List Token) (s : Statement) (h : statement reserved toks = some s) :
    Bears reserved s.names s.colIds toks := by
  unfold statement at h
  split at h
  · rename_i found hfound
    cases h
    exact (upsert_bears toks s hfound).1
  · exact (delete_bears toks s h).1

theorem read_conflict (text table : String) (columns : List String) (values : List ℕ)
    (conflict : List String) (update : Option (List (String × String)))
    (h : read reserved text = some (.upsert table columns values conflict update)) :
    conflict ≠ [] := by
  obtain ⟨toks, _, hstatement⟩ := Option.bind_eq_some_iff.mp h
  unfold statement at hstatement
  split at hstatement
  · rename_i found hfound
    cases hstatement
    obtain ⟨_, _, _, _, _, _, heq, hsome⟩ := upsert_bears toks _ hfound
    cases heq
    exact hsome
  · obtain ⟨_, _, _, heq, _⟩ := delete_bears toks _ hstatement
    cases heq

/-- A text that reads as a statement with all its quotes in the names has
nothing but plain names in it. -/
theorem read_plain (text : String) (s : Statement) (h : read reserved text = some s)
    (hquotes : nameCount text ≤ (s.names.map nameCount).sum) (x : String) (hx : x ∈ s.colIds) :
    isPlain x.toList = true ∧ reserved x = false := by
  obtain ⟨toks, hlex, hstatement⟩ := Option.bind_eq_some_iff.mp h
  obtain ⟨hnames, hcolIds⟩ := statement_bears toks s hstatement
  have hcount := lex_quotes .between text.toList toks hlex
  have hunquoted := lex_unquoted .between trivial text.toList toks hlex
  have hle : quotes toks ≤ nameQuotes toks := by
    rw [hnames]
    simp only [Mode.quotes, nameCount] at hcount hquotes ⊢
    omega
  obtain ⟨quoted, hmem, hreserved⟩ := hcolIds x hx
  have hfalse := none_quoted toks hunquoted hle x.toList quoted hmem
  subst hfalse
  exact ⟨hunquoted x.toList hmem, hreserved rfl⟩

end Names

end CDC.SqlReader
