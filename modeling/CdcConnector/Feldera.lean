import CdcConnector.JsonValue

/-!
# Batches for Feldera

Each change of a batch becomes one or two elements, each element an object
with the column names as keys. The elements are written one to a line; the
writer of JSON may list an object's members in any order.
-/

set_option autoImplicit false

namespace CDC.Feldera
open CDC.Fallible CDC.Event CDC.Calendar CDC.JsonText CDC.JsonValue

abbrev FelderaRow := Object

inductive FelderaEvent where
  | insert (row : FelderaRow)
  | delete (row : FelderaRow)
  deriving DecidableEq

inductive Error where
  | unknownRelation (oid : Oid)
  deriving DecidableEq

abbrev FieldNames := Oid → Option (List String)

def extractNames (fields : List Field) : List String := fields.map Field.name

def insertPair (row : FelderaRow) (pair : String × Value) : FelderaRow := row.insert pair.1 pair.2

/-- A pair with the key of an earlier one replaces it. -/
def collect (pairs : List (String × Value)) : FelderaRow := pairs.foldl insertPair ∅

def labelValue (overflowChecks : Bool) (pair : PgValue × String) : Outcome Error (String × Value) := do
  let image ← toJsonValue overflowChecks pair.1
  return (pair.2, image)

section Convert
variable (overflowChecks : Bool) (fieldNames : FieldNames)

def convertRow (oid : Oid) (values : List PgValue) : Outcome Error FelderaRow :=
  match fieldNames oid with
  | some fields => do
    let val ← (values.zip fields).mapM (labelValue overflowChecks)
    return collect val
  | none => fail (.unknownRelation oid)

def convertEvent (event : ChangeEvent) : Outcome Error (List FelderaEvent) := do
  match event.op with
  | .insert row =>
    let row ← convertRow overflowChecks fieldNames event.rel row
    return [.insert row]
  | .update old row =>
    let old ← convertRow overflowChecks fieldNames event.rel old
    let row ← convertRow overflowChecks fieldNames event.rel row
    return [.delete old, .insert row]
  | .delete old =>
    let old ← convertRow overflowChecks fieldNames event.rel old
    return [.delete old]

def convertOpBatches : List ChangeEvent → Outcome Error (List FelderaEvent)
  | [] => return []
  | event::batch => do
    let first ← convertEvent overflowChecks fieldNames event
    let rest ← convertOpBatches batch
    return first ++ rest

end Convert

/-- `write n` is what the writer makes of the element in line `n`. -/
def toLines {E : Type} (write : ℕ → FelderaEvent → Except E (List Char)) :
    ℕ → List FelderaEvent → Except E (List Char)
  | _, [] => return []
  | n, op::batch => do
    let document ← write n op
    let rest ← toLines write (n+1) batch
    return document ++ '\n' :: rest

namespace FelderaEvent

def tag : FelderaEvent → String
  | insert _ => "insert"
  | delete _ => "delete"

def row : FelderaEvent → FelderaRow
  | insert row => row
  | delete row => row

/-- A JSON document of the element: its tag over the members of its row. -/
def Document (op : FelderaEvent) (document : List Char) : Prop :=
  ∃ entries, entries.Perm op.row.entries ∧
    document = '{' :: (quoted op.tag ++ ':' :: (members entries ++ ['}']))

end FelderaEvent

/-- The writer writes a document of every element. -/
def WritesJson {E : Type} (write : ℕ → FelderaEvent → Except E (List Char)) : Prop :=
  ∀ n op, ∃ document, write n op = .ok document ∧ op.Document document

def Labelled (overflowChecks : Bool) (names : List String) (values : List PgValue)
    (row : FelderaRow) : Prop :=
  ∃ images, List.Forall₂ (fun v x => (toJsonValue overflowChecks v : Outcome Error Value) = .ok x)
      values images ∧
    (∀ f x, (f, x) ∈ names.zip images → row.lookup f = some x) ∧ ∀ f, f ∉ names → row.lookup f = none

def Carries (overflowChecks : Bool) (fieldNames : FieldNames) (event : ChangeEvent)
    (part : List FelderaEvent) : Prop :=
  ∃ names, fieldNames event.rel = some names ∧
    match event.op with
    | .insert row => ∃ obj, Labelled overflowChecks names row obj ∧ part = [.insert obj]
    | .update old row => ∃ before after, Labelled overflowChecks names old before ∧
        Labelled overflowChecks names row after ∧ part = [.delete before, .insert after]
    | .delete old => ∃ obj, Labelled overflowChecks names old obj ∧ part = [.delete obj]

def rows (event : ChangeEvent) : List (List PgValue) :=
  match event.op with
  | .insert row => [row]
  | .update old row => [old, row]
  | .delete old => [old]

def Overflows : PgValue → Prop
  | .timestamp t => ¬ Fits (t.toInt + 946684800000000)
  | _ => False

section Rows
variable {overflowChecks : Bool} {fieldNames : FieldNames}

theorem toJsonValue_ok_iff (v : PgValue) :
    (∃ x, (toJsonValue overflowChecks v : Outcome Error Value) = .ok x) ↔
      (overflowChecks = true → ¬ Overflows v) := by
  cases v with
  | timestamp t =>
    by_cases hfits : Fits (t.toInt + 946684800000000)
    · refine iff_of_true ?_ (fun _ h => h hfits)
      by_cases hin : InRange (t.toInt + 946684800000000)
      · exact ⟨_, toJsonValue_in overflowChecks t hin⟩
      · exact ⟨_, toJsonValue_out overflowChecks t hin hfits⟩
    · cases overflowChecks with
      | true =>
        refine iff_of_false ?_ (fun h => h rfl hfits)
        rintro ⟨x, hx⟩
        rw [toJsonValue_overflow t hfits] at hx
        cases hx
      | false => exact iff_of_true ⟨_, rfl⟩ (fun h => by cases h)
  | _ => exact iff_of_true ⟨_, rfl⟩ (fun _ h => h)

theorem lookup_foldl_of_not_mem (pairs : List (String × Value)) (row : FelderaRow) (f : String)
    (h : f ∉ pairs.map Prod.fst) : (pairs.foldl insertPair row).lookup f = row.lookup f := by
  induction pairs generalizing row with
  | nil => rfl
  | cons pair pairs ih =>
    rw [List.map_cons, List.mem_cons, not_or] at h
    rw [List.foldl_cons, ih _ h.2, insertPair, AList.lookup_insert_ne h.1]

theorem lookup_foldl_of_mem (pairs : List (String × Value)) (row : FelderaRow)
    (hnodup : (pairs.map Prod.fst).Nodup) (f : String) (x : Value) (h : (f, x) ∈ pairs) :
    (pairs.foldl insertPair row).lookup f = some x := by
  induction pairs generalizing row with
  | nil => cases h
  | cons pair pairs ih =>
    rw [List.map_cons, List.nodup_cons] at hnodup
    rw [List.foldl_cons]
    rcases List.mem_cons.mp h with rfl | h
    · rw [lookup_foldl_of_not_mem pairs _ f hnodup.1, insertPair, AList.lookup_insert]
    · exact ih _ hnodup.2 h

theorem labelled_pairs (values : List PgValue) (names : List String) (pairs : List (String × Value))
    (hle : values.length ≤ names.length)
    (h : List.Forall₂ (fun p q => labelValue overflowChecks p = .ok q) (values.zip names) pairs) :
    ∃ images, List.Forall₂
        (fun v x => (toJsonValue overflowChecks v : Outcome Error Value) = .ok x) values images ∧
      pairs = (names.take values.length).zip images := by
  induction values generalizing names pairs with
  | nil =>
    cases h
    exact ⟨[], .nil, by simp⟩
  | cons v values ih =>
    cases names with
    | nil => simp at hle
    | cons f names =>
      rw [List.zip_cons_cons] at h
      cases h with
      | cons hfirst hrest =>
        obtain ⟨image, himage, hpair⟩ := (bind_ok_iff _ _ _).mp hfirst
        cases hpair
        obtain ⟨images, himages, rfl⟩ := ih names _ (by simpa using hle) hrest
        refine ⟨image::images, .cons himage himages, ?_⟩
        rw [List.length_cons, List.take_succ_cons, List.zip_cons_cons]

theorem zip_names (names : List String) (images : List Value) (h : names.length = images.length) :
    (names.zip images).map Prod.fst = names :=
  List.map_fst_zip h.le

theorem convertRow_labelled (oid : Oid) (values : List PgValue) (names : List String)
    (hnames : fieldNames oid = some names) (hnodup : names.Nodup)
    (hle : values.length ≤ names.length) (obj : FelderaRow)
    (h : convertRow overflowChecks fieldNames oid values = .ok obj) :
    Labelled overflowChecks (names.take values.length) values obj := by
  rw [convertRow, hnames] at h
  obtain ⟨pairs, hpairs, hobj⟩ := (bind_ok_iff _ _ _).mp h
  cases hobj
  obtain ⟨images, himages, rfl⟩ := labelled_pairs values names pairs hle
    ((mapM_ok_iff _ _ _).mp hpairs)
  have hlen := himages.length_eq
  have hkeys := zip_names (names.take values.length) images
    (by rw [List.length_take_of_le hle, hlen])
  have hdistinct := hnodup.sublist (List.take_sublist values.length names)
  refine ⟨images, himages, ?_, ?_⟩
  · intro f x hmem
    exact lookup_foldl_of_mem _ ∅ (by rwa [hkeys]) f x hmem
  · intro f hnot
    exact lookup_foldl_of_not_mem _ ∅ f (by rwa [hkeys])

theorem convertRow_ok_iff (oid : Oid) (values : List PgValue)
    (hlen : ∀ names, fieldNames oid = some names → values.length = names.length) :
    (∃ obj, convertRow overflowChecks fieldNames oid values = .ok obj) ↔
      (fieldNames oid).isSome ∧ (overflowChecks = true → ∀ v ∈ values, ¬ Overflows v) := by
  cases hnames : fieldNames oid with
  | none =>
    rw [convertRow, hnames]
    exact iff_of_false (by simp [fail]) (by simp)
  | some names =>
    have hvalues : (values.zip names).map Prod.fst = values :=
      List.map_fst_zip (hlen names hnames).le
    have hlabel : ∀ p, (∃ q, labelValue overflowChecks p = .ok q) ↔
        (overflowChecks = true → ¬ Overflows p.1) := by
      intro p
      rw [← toJsonValue_ok_iff]
      simp [labelValue, bind_ok_iff]
    rw [convertRow, hnames]
    simp only [bind_ok_iff, pure_ok, Except.ok.injEq, Option.isSome_some, true_and]
    have htotal := mapM_total_iff (labelValue overflowChecks) (values.zip names)
    simp only [hlabel] at htotal
    constructor
    · rintro ⟨obj, pairs, hpairs, _⟩ hchecks v hv
      rw [← hvalues] at hv
      obtain ⟨p, hp, rfl⟩ := List.mem_map.mp hv
      exact htotal.mp ⟨pairs, hpairs⟩ p hp hchecks
    · intro h
      obtain ⟨pairs, hpairs⟩ := htotal.mpr
        (fun p hp hchecks => h hchecks p.1 (by rw [← hvalues]; exact List.mem_map_of_mem hp))
      exact ⟨_, pairs, hpairs, rfl⟩

def FullRows (fieldNames : FieldNames) (event : ChangeEvent) : Prop :=
  ∀ names, fieldNames event.rel = some names → ∀ row ∈ rows event, row.length = names.length

theorem convertEvent_ok_iff (event : ChangeEvent) (hfull : FullRows fieldNames event) :
    (∃ part, convertEvent overflowChecks fieldNames event = .ok part) ↔
      (fieldNames event.rel).isSome ∧
        (overflowChecks = true → ∀ row ∈ rows event, ∀ v ∈ row, ¬ Overflows v) := by
  have hrow : ∀ row ∈ rows event,
      ((∃ obj, convertRow overflowChecks fieldNames event.rel row = .ok obj) ↔
        (fieldNames event.rel).isSome ∧ (overflowChecks = true → ∀ v ∈ row, ¬ Overflows v)) := by
    intro row hmem
    exact convertRow_ok_iff event.rel row (fun names hnames => hfull names hnames row hmem)
  obtain ⟨op, rel⟩ := event
  cases op with
  | insert row =>
    simp only [rows, List.mem_singleton, forall_eq] at hrow ⊢
    rw [← hrow]
    simp [convertEvent, bind_ok_iff]
  | update old row =>
    simp only [rows, List.mem_cons, List.not_mem_nil, or_false, forall_eq_or_imp, forall_eq] at hrow ⊢
    obtain ⟨hold, hnew⟩ := hrow
    have hboth : (∃ part, convertEvent overflowChecks fieldNames ⟨.update old row, rel⟩ = .ok part) ↔
        (∃ obj, convertRow overflowChecks fieldNames rel old = .ok obj) ∧
          ∃ obj, convertRow overflowChecks fieldNames rel row = .ok obj := by
      simp [convertEvent, bind_ok_iff]
    rw [hboth, hold, hnew]
    tauto
  | delete old =>
    simp only [rows, List.mem_singleton, forall_eq] at hrow ⊢
    rw [← hrow]
    simp [convertEvent, bind_ok_iff]

theorem convertEvent_carries (event : ChangeEvent) (hfull : FullRows fieldNames event)
    (hnodup : ∀ names, fieldNames event.rel = some names → names.Nodup) (part : List FelderaEvent)
    (h : convertEvent overflowChecks fieldNames event = .ok part) :
    Carries overflowChecks fieldNames event part := by
  obtain ⟨hknown, _⟩ := (convertEvent_ok_iff event hfull).mp ⟨part, h⟩
  obtain ⟨names, hnames⟩ := Option.isSome_iff_exists.mp hknown
  have hrow : ∀ row ∈ rows event, ∀ obj,
      convertRow overflowChecks fieldNames event.rel row = .ok obj →
        Labelled overflowChecks names row obj := by
    intro row hmem obj hobj
    have hlen := hfull names hnames row hmem
    have hlabelled := convertRow_labelled event.rel row names hnames (hnodup names hnames) hlen.le obj
      hobj
    rwa [hlen, List.take_length] at hlabelled
  refine ⟨names, hnames, ?_⟩
  obtain ⟨op, rel⟩ := event
  cases op with
  | insert row =>
    obtain ⟨obj, hobj, hpart⟩ := (bind_ok_iff _ _ _).mp h
    cases hpart
    exact ⟨obj, hrow row List.mem_cons_self obj hobj, rfl⟩
  | update old row =>
    obtain ⟨before, hbefore, hrest⟩ := (bind_ok_iff _ _ _).mp h
    obtain ⟨after, hafter, hpart⟩ := (bind_ok_iff _ _ _).mp hrest
    cases hpart
    exact ⟨before, after, hrow old List.mem_cons_self before hbefore,
      hrow row (List.mem_cons_of_mem old List.mem_cons_self) after hafter, rfl⟩
  | delete old =>
    obtain ⟨obj, hobj, hpart⟩ := (bind_ok_iff _ _ _).mp h
    cases hpart
    exact ⟨obj, hrow old List.mem_cons_self obj hobj, rfl⟩

theorem convertOpBatches_ok_iff (batch : List ChangeEvent) (out : List FelderaEvent) :
    convertOpBatches overflowChecks fieldNames batch = .ok out ↔
      ∃ parts, List.Forall₂
        (fun event part => convertEvent overflowChecks fieldNames event = .ok part) batch parts ∧
          out = parts.flatten := by
  induction batch generalizing out with
  | nil =>
    simp only [convertOpBatches, pure_ok, Except.ok.injEq, List.forall₂_nil_left_iff, exists_eq_left,
      List.flatten_nil]
    exact eq_comm
  | cons event batch ih =>
    simp only [convertOpBatches, bind_ok_iff, pure_ok, Except.ok.injEq, ih,
      List.forall₂_cons_left_iff]
    constructor
    · rintro ⟨first, hfirst, rest, ⟨parts, hparts, rfl⟩, rfl⟩
      exact ⟨first::parts, ⟨first, parts, hfirst, hparts, rfl⟩, rfl⟩
    · rintro ⟨_, ⟨first, parts, hfirst, hparts, rfl⟩, rfl⟩
      exact ⟨first, hfirst, parts.flatten, ⟨parts, hparts, rfl⟩, rfl⟩

theorem convertOpBatches_total_iff (batch : List ChangeEvent)
    (hfull : ∀ event ∈ batch, FullRows fieldNames event) :
    (∃ out, convertOpBatches overflowChecks fieldNames batch = .ok out) ↔
      ∀ event ∈ batch, (fieldNames event.rel).isSome ∧
        (overflowChecks = true → ∀ row ∈ rows event, ∀ v ∈ row, ¬ Overflows v) := by
  induction batch with
  | nil => simp [convertOpBatches]
  | cons event batch ih =>
    rw [List.forall_mem_cons] at hfull ⊢
    rw [← ih hfull.2, ← convertEvent_ok_iff event hfull.1]
    simp [convertOpBatches, bind_ok_iff]

end Rows

theorem toLines_documents {E : Type} (write : ℕ → FelderaEvent → Except E (List Char))
    (hwrites : WritesJson write) (batch : List FelderaEvent) (n : ℕ) :
    ∃ documents, List.Forall₂ FelderaEvent.Document batch documents ∧
      toLines write n batch = .ok (documents.flatMap (· ++ ['\n'])) := by
  induction batch generalizing n with
  | nil => exact ⟨[], .nil, rfl⟩
  | cons op batch ih =>
    obtain ⟨document, hwrite, hdocument⟩ := hwrites n op
    obtain ⟨documents, hdocuments, hlines⟩ := ih (n+1)
    refine ⟨document::documents, .cons hdocument hdocuments, ?_⟩
    rw [toLines, hwrite, List.flatMap_cons, List.append_assoc, List.singleton_append]
    simp only [bind, Except.bind, hlines, pure, Except.pure]

theorem document_plain (op : FelderaEvent) (document : List Char) (h : op.Document document) :
    Plain document := by
  obtain ⟨entries, _, rfl⟩ := h
  rw [plain_cons, plain_append, plain_cons, plain_append]
  exact ⟨by decide, quoted_plain _, by decide, members_plain entries, by simp [Plain]⟩

/-- The batch is converted exactly when all its relations are known; then its
elements carry its changes in order, and its text is one document a line. -/
def BatchExact {E : Type} (overflowChecks : Bool) (fieldNames : FieldNames)
    (write : ℕ → FelderaEvent → Except E (List Char)) (batch : List ChangeEvent) : Prop :=
  ((∃ out, convertOpBatches overflowChecks fieldNames batch = .ok out) ↔
      ∀ event ∈ batch, (fieldNames event.rel).isSome) ∧
    ∀ out, convertOpBatches overflowChecks fieldNames batch = .ok out →
      (∃ parts, List.Forall₂ (Carries overflowChecks fieldNames) batch parts ∧
        out = parts.flatten) ∧
      ∃ text documents, toLines write 0 out = .ok text ∧
        text.splitOn '\n' = documents ++ [[]] ∧ List.Forall₂ FelderaEvent.Document out documents

theorem parts_carry (overflowChecks : Bool) (fieldNames : FieldNames)
    (hnodup : ∀ oid names, fieldNames oid = some names → names.Nodup) (batch : List ChangeEvent)
    (hfull : ∀ event ∈ batch, FullRows fieldNames event) (parts : List (List FelderaEvent))
    (h : List.Forall₂ (fun event part => convertEvent overflowChecks fieldNames event = .ok part)
      batch parts) : List.Forall₂ (Carries overflowChecks fieldNames) batch parts := by
  induction h with
  | nil => exact .nil
  | @cons event part batch parts hfirst _ ih =>
    rw [List.forall_mem_cons] at hfull
    exact .cons (convertEvent_carries event hfull.1 (hnodup event.rel) part hfirst) (ih hfull.2)

theorem lines_split {E : Type} (write : ℕ → FelderaEvent → Except E (List Char))
    (hwrites : WritesJson write) (out : List FelderaEvent) :
    ∃ text documents, toLines write 0 out = .ok text ∧
      text.splitOn '\n' = documents ++ [[]] ∧ List.Forall₂ FelderaEvent.Document out documents := by
  obtain ⟨documents, hdocuments, hlines⟩ := toLines_documents write hwrites out 0
  have hplain : ∀ document ∈ documents, Plain document := by
    intro document hmem
    obtain ⟨i, hi, rfl⟩ := List.mem_iff_getElem.mp hmem
    have hout : i < out.length := by rwa [hdocuments.length_eq]
    exact document_plain _ _ (List.Forall₂.get hdocuments hout hi)
  exact ⟨_, documents, hlines, splitOn_lines documents hplain, hdocuments⟩

/-- Every batch over distinct column names, with rows of full length, is
carried exactly, unless a timestamp of it overflows where that is checked. -/
theorem batch_exact_iff {E : Type} (overflowChecks : Bool) (fieldNames : FieldNames)
    (hnodup : ∀ oid names, fieldNames oid = some names → names.Nodup)
    (write : ℕ → FelderaEvent → Except E (List Char)) (hwrites : WritesJson write)
    (batch : List ChangeEvent) (hfull : ∀ event ∈ batch, FullRows fieldNames event) :
    BatchExact overflowChecks fieldNames write batch ↔
      overflowChecks = false ∨ (∃ event ∈ batch, fieldNames event.rel = none) ∨
        ∀ event ∈ batch, ∀ row ∈ rows event, ∀ v ∈ row, ¬ Overflows v := by
  have htotal := @convertOpBatches_total_iff overflowChecks fieldNames batch hfull
  have hexact : ∀ out, convertOpBatches overflowChecks fieldNames batch = .ok out →
      (∃ parts, List.Forall₂ (Carries overflowChecks fieldNames) batch parts ∧
        out = parts.flatten) ∧
      ∃ text documents, toLines write 0 out = .ok text ∧
        text.splitOn '\n' = documents ++ [[]] ∧
          List.Forall₂ FelderaEvent.Document out documents := by
    intro out hout
    obtain ⟨parts, hparts, hflat⟩ := (convertOpBatches_ok_iff batch out).mp hout
    exact ⟨⟨parts, parts_carry overflowChecks fieldNames hnodup batch hfull parts hparts, hflat⟩,
      lines_split write hwrites out⟩
  rw [BatchExact, htotal]
  constructor
  · rintro ⟨hknown, _⟩
    cases overflowChecks with
    | false => exact Or.inl rfl
    | true =>
      by_cases hall : ∀ event ∈ batch, (fieldNames event.rel).isSome
      · exact Or.inr (Or.inr (fun event hmem => (hknown.mpr hall event hmem).2 rfl))
      · push Not at hall
        obtain ⟨event, hmem, hnone⟩ := hall
        exact Or.inr (Or.inl ⟨event, hmem, by simpa using hnone⟩)
  · intro hcond
    refine ⟨⟨fun h event hmem => (h event hmem).1, ?_⟩, hexact⟩
    intro hall event hmem
    refine ⟨hall event hmem, ?_⟩
    rcases hcond with hunchecked | ⟨stranger, hstranger, hnone⟩ | hfit
    · intro hchecked
      rw [hunchecked] at hchecked
      cases hchecked
    · have hsome := hall stranger hstranger
      rw [hnone] at hsome
      cases hsome
    · exact fun _ => hfit event hmem

def writeInOrder (_ : ℕ) (op : FelderaEvent) : Except Unit (List Char) :=
  .ok ('{' :: (quoted op.tag ++ ':' :: (members op.row.entries ++ ['}'])))

theorem writeInOrder_writes : WritesJson writeInOrder :=
  fun _ op => ⟨_, rfl, op.row.entries, .refl _, rfl⟩

def people : FieldNames := fun oid => if oid = 16386 then some ["id", "name"] else none

theorem people_nodup (oid : Oid) (names : List String) (h : people oid = some names) :
    names.Nodup := by
  unfold people at h
  split_ifs at h
  cases h
  decide

def visits : FieldNames := fun _ => some ["at"]

theorem infinite_visit_panics :
    (visits 1).isSome ∧
      convertOpBatches true visits [⟨.insert [.timestamp 9223372036854775807], 1⟩] = panicked := by
  decide

theorem newline_stays_inside :
    BatchExact true people writeInOrder
      [⟨.update [.int4 1, .text "Ada"] [.int4 1, .text "A\nda"], 16386⟩] := by
  refine (batch_exact_iff true people people_nodup writeInOrder writeInOrder_writes _ ?_).mpr
    (Or.inr (Or.inr ?_))
  · intro event hevent names hnames row hrow
    rw [List.mem_singleton] at hevent
    subst hevent
    cases hnames
    simp only [rows, List.mem_cons, List.not_mem_nil, or_false] at hrow
    rcases hrow with rfl | rfl
    · rfl
    · rfl
  · intro event hevent row hrow v hv
    rw [List.mem_singleton] at hevent
    subst hevent
    simp only [rows, List.mem_cons, List.not_mem_nil, or_false] at hrow
    rcases hrow with rfl | rfl
    · simp only [List.mem_cons, List.not_mem_nil, or_false] at hv
      rcases hv with rfl | rfl <;> exact id
    · simp only [List.mem_cons, List.not_mem_nil, or_false] at hv
      rcases hv with rfl | rfl <;> exact id

end CDC.Feldera
