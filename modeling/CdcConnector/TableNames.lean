import CdcConnector.OwnTables

/-!
# The names tables go by

A text is used for as long as it is cached, so a relation goes by the names of
the relations its two texts were made of. A name that is a word is read in lower
case, and the table of a text is read from the relation's name alone.
-/

set_option autoImplicit false

namespace CDC.TableNames
open CDC.Event CDC.SinkModel CDC.PostgresSink CDC.PartialRun CDC.SqlLexer CDC.OwnTables
open CDC.StatementCache CDC.SinkDatabase CDC.SinkTables
open CDC.SqlReader (statement colId IsColId colId_reads key skip skip_append statement_upsert
  statement_delete)
open CDC.SinkStatements hiding param Statement

def folded (name : String) : String := String.ofList (name.toList.map Char.toLower)

def Apart (name name' : String) : Prop :=
  isWord name.toList = true ∧ isWord name'.toList = true ∧ folded name ≠ folded name'

instance (name name' : String) : Decidable (Apart name name') :=
  inferInstanceAs (Decidable (_ ∧ _ ∧ _))

section Table
variable {reserved : String → Bool}

theorem colId_table (name : List Char) (quoted : Bool) (toks rest : List Token) (table : String)
    (h : colId reserved (.ident name quoted :: toks) = some (table, rest)) :
    table = String.ofList name := by
  obtain ⟨used, htoks, _, rfl, _⟩ := (colId_reads reserved _ _ _).mp h
  injection htoks with hident _
  injection hident with hname _
  rw [hname, String.ofList_toList]

theorem upsert_table (name : List Char) (quoted : Bool) (toks : List Token)
    (stmt : SqlReader.Statement)
    (h : statement reserved (key "insert" :: key "into" :: .ident name quoted :: toks) = some stmt) :
    stmt.table = String.ofList name := by
  rw [statement_upsert] at h
  change (colId reserved (.ident name quoted :: toks)).bind _ = some stmt at h
  obtain ⟨⟨table, rest⟩, hcol, h⟩ := Option.bind_eq_some_iff.mp h
  have htable := colId_table name quoted toks rest table hcol
  simp only [Option.bind_eq_bind, Option.bind_eq_some_iff, Option.ite_none_right_eq_some] at h
  obtain ⟨_, _, _, _, _, _, _, _, _, _, _, _, _, _, _, _, _, hstmt⟩ := h
  cases hstmt
  exact htable

theorem delete_table (name : List Char) (quoted : Bool) (toks : List Token)
    (stmt : SqlReader.Statement)
    (h : statement reserved (key "delete" :: key "from" :: .ident name quoted :: toks) = some stmt) :
    stmt.table = String.ofList name := by
  rw [statement_delete] at h
  change (colId reserved (.ident name quoted :: toks)).bind _ = some stmt at h
  obtain ⟨⟨table, rest⟩, hcol, h⟩ := Option.bind_eq_some_iff.mp h
  have htable := colId_table name quoted toks rest table hcol
  simp only [Option.bind_eq_bind, Option.bind_eq_some_iff, Option.ite_none_right_eq_some] at h
  obtain ⟨_, _, _, _, _, hstmt⟩ := h
  cases hstmt
  exact htable

theorem named_lex (first name sep rest : List Char) (toks : List Token) (all : List Token)
    (hfirst : run .between first = some (toks, .between)) (hname : isWord name = true)
    (hsep : Ends sep) (hne : sep ≠ [])
    (h : lex .between (first ++ (name ++ (sep ++ rest))) = some all) :
    ∃ more, all = toks ++ unquoted name :: more := by
  have hends : Ends (sep ++ rest) := by
    intro c hc
    apply hsep c
    rwa [List.head?_append_of_ne_nil sep hne] at hc
  rw [lex_append .between first _ toks .between hfirst, lex_word name _ hname hends,
    Option.map_map, Option.map_eq_some_iff] at h
  obtain ⟨more, _, rfl⟩ := h
  exact ⟨more, rfl⟩

theorem upsert_reads (table : String) (rows keys : List String) (hword : isWord table.toList = true)
    (stmt : SqlReader.Statement)
    (h : SqlReader.read reserved (UpsertStatement.genStr table rows keys) = some stmt) :
    stmt.table = folded table := by
  obtain ⟨toks, hlex, hstmt⟩ := Option.bind_eq_some_iff.mp h
  unfold UpsertStatement.genStr at hlex
  simp only [String.append_assoc, String.toList_append] at hlex
  obtain ⟨more, rfl⟩ := named_lex _ _ " (".toList _ [key "insert", key "into"] toks (by decide)
    hword (ends_cons _ _ (by decide)) (by decide) hlex
  exact upsert_table _ false more stmt hstmt

theorem delete_reads (table : String) (keys : List String) (hword : isWord table.toList = true)
    (stmt : SqlReader.Statement)
    (h : SqlReader.read reserved (DeleteStatement.genStr table keys) = some stmt) :
    stmt.table = folded table := by
  obtain ⟨toks, hlex, hstmt⟩ := Option.bind_eq_some_iff.mp h
  unfold DeleteStatement.genStr at hlex
  simp only [String.append_assoc, String.toList_append] at hlex
  obtain ⟨more, rfl⟩ := named_lex _ _ " WHERE ".toList _ [key "delete", key "from"] toks (by decide)
    hword (ends_cons _ _ (by decide)) (by decide) hlex
  exact delete_table _ false more stmt hstmt

/-- A text changes no table but the one it names, where that is a word, and does
change the table it is read as. -/
structure Sql (reserved : String → Bool) (changes : String → Set String) : Prop where
  upsert : ∀ table rows keys, isWord table.toList = true →
    changes (UpsertStatement.genStr table rows keys) ⊆ {folded table}
  delete : ∀ table keys, isWord table.toList = true →
    changes (DeleteStatement.genStr table keys) ⊆ {folded table}
  read : ∀ text stmt, SqlReader.read reserved text = some stmt → stmt.table ∈ changes text

theorem readTables_sql : Sql reserved (readTables reserved) := by
  constructor
  · rintro table rows keys hword _ ⟨stmt, hstmt, rfl⟩
    exact upsert_reads table rows keys hword stmt hstmt
  · rintro table keys hword _ ⟨stmt, hstmt, rfl⟩
    exact delete_reads table keys hword stmt hstmt
  · exact fun text stmt hstmt => ⟨stmt, hstmt, rfl⟩

end Table

section Made

/-- The relations known now, and the ones that the cached texts were made of. -/
structure Made where
  known : Oid → Option Relation
  upserts : Oid → Option Relation
  deletes : Oid → Option Relation

def first (relations : Oid → Option Relation) : Made := ⟨relations, fun _ => none, fun _ => none⟩

def join (known : Oid → Option Relation) (before after : StatementCache)
    (made : Oid → Option Relation) (oid : Oid) : Option Relation :=
  if before oid = none ∧ after oid ≠ none then known oid else made oid

def MadeOf (text : Relation → String) (cache : StatementCache) (made : Oid → Option Relation) : Prop :=
  ∀ oid, (cache oid).map SinkStatements.Statement.text = (made oid).map text

theorem madeOf_inHand {text : Relation → String} {cache : StatementCache}
    {made : Oid → Option Relation} (h : MadeOf text cache made) (oid : Oid) (rel : Relation) :
    inHand text cache oid rel = text ((made oid).getD rel) := by
  rw [inHand, h oid]
  cases made oid <;> rfl

theorem join_self (known : Oid → Option Relation) (cache : StatementCache)
    (made : Oid → Option Relation) : join known cache cache made = made := by
  ext1 oid
  exact if_neg (fun h => h.2 h.1)

theorem filled_madeOf {text : Relation → String} {known : Oid → Option Relation} {oid : Oid}
    {before after : StatementCache} {made : Oid → Option Relation}
    (h : Filled text known oid before after) (hmade : MadeOf text before made) :
    MadeOf text after (join known before after made) := by
  rcases h with rfl | ⟨hnone, rel, stmt, hrel, htext, rfl⟩
  · rw [join_self]
    exact hmade
  · intro o
    by_cases ho : o = oid
    · subst ho
      simp [join, hnone, hrel, htext]
    · have hother := hmade o
      simpa [join, ho] using hother

theorem join_getD (known : Oid → Option Relation) (before after : StatementCache)
    {text : Relation → String} {made : Oid → Option Relation} (hmade : MadeOf text before made)
    (oid : Oid) (rel : Relation) (hrel : known oid = some rel) :
    (join known before after made oid).getD rel = (made oid).getD rel := by
  unfold join
  split_ifs with h
  · have hnone := hmade oid
    rw [h.1, Option.map_none, eq_comm, Option.map_eq_none_iff] at hnone
    rw [hrel, hnone]
    rfl
  · rfl

variable {D : Type} [PostgresClient D]

def follow (s : Sink D) (n : Made) : Call → Made
  | .relation relation => { n with known := latest n.known (.relation relation) }
  | .event event =>
    let s' := (onEvent event s).1
    { n with
      upserts := join n.known s.upsertStmtCache s'.upsertStmtCache n.upserts
      deletes := join n.known s.deleteStmtCache s'.deleteStmtCache n.deletes }

theorem follow_known (s : Sink D) (n : Made) (call : Call) :
    (follow s n call).known = latest n.known call := by
  cases call <;> rfl

end Made

section Names

/-- The relations whose names a relation's two texts have. -/
def inUse (n : Made) (oid : Oid) (rel : Relation) : List Relation :=
  [(n.upserts oid).getD rel, (n.deletes oid).getD rel]

/-- The two relations go by names that are read as different ones. -/
def GoApart (n : Made) (oid oid' : Oid) (rel rel' : Relation) : Prop :=
  ∀ used ∈ inUse n oid rel, ∀ used' ∈ inUse n oid' rel', Apart used.name used'.name

instance (n : Made) (oid oid' : Oid) (rel rel' : Relation) : Decidable (GoApart n oid oid' rel rel') :=
  inferInstanceAs (Decidable (∀ used ∈ inUse n oid rel, ∀ used' ∈ inUse n oid' rel',
    Apart used.name used'.name))

/-- Known relations that are called differently go by names of their own. -/
def NamesApart (n : Made) : Prop :=
  ∀ oid oid' rel rel', n.known oid = some rel → n.known oid' = some rel' →
    qualified rel ≠ qualified rel' → GoApart n oid oid' rel rel'

/-- The name of a relation that arrives, and the older ones of its texts that
are cached, are apart from the names of the other known relations. -/
def arrives (n : Made) : Call → Prop
  | .relation relation => ∀ oid rel, oid ≠ relation.relationOid → n.known oid = some rel →
      qualified relation ≠ qualified rel → GoApart n relation.relationOid oid relation rel
  | .event _ => True

theorem Apart.symm {name name' : String} (h : Apart name name') : Apart name' name :=
  ⟨h.2.1, h.1, h.2.2.symm⟩

theorem GoApart.symm {n : Made} {oid oid' : Oid} {rel rel' : Relation}
    (h : GoApart n oid oid' rel rel') : GoApart n oid' oid rel' rel := by
  intro used' hused' used hused
  exact (h used hused used' hused').symm

theorem arrives_names (n : Made) (relation : Relation) (h : NamesApart n)
    (harrives : arrives n (.relation relation)) :
    NamesApart { n with known := latest n.known (.relation relation) } := by
  intro oid oid' rel rel' hrel hrel' hne
  simp only [latest] at hrel hrel'
  show GoApart n oid oid' rel rel'
  by_cases ho : oid = relation.relationOid
  · by_cases ho' : oid' = relation.relationOid
    · rw [ho, Function.update_self, Option.some.injEq] at hrel
      rw [ho', Function.update_self, Option.some.injEq] at hrel'
      exact absurd (hrel.symm.trans hrel' ▸ rfl) hne
    · subst ho
      rw [Function.update_self, Option.some.injEq] at hrel
      rw [Function.update_of_ne ho'] at hrel'
      subst hrel
      exact harrives oid' rel' ho' hrel' hne
  · rw [Function.update_of_ne ho] at hrel
    by_cases ho' : oid' = relation.relationOid
    · subst ho'
      rw [Function.update_self, Option.some.injEq] at hrel'
      subst hrel'
      exact (harrives oid rel ho hrel hne.symm).symm
    · rw [Function.update_of_ne ho'] at hrel'
      exact h oid oid' rel rel' hrel hrel' hne

theorem names_arrive (n : Made) (relation : Relation)
    (h : NamesApart { n with known := latest n.known (.relation relation) }) :
    arrives n (.relation relation) := by
  intro oid rel ho hrel hne
  exact h relation.relationOid oid relation rel (Function.update_self _ _ _)
    ((Function.update_of_ne ho _ _).trans hrel) hne

end Names

section Runs
variable {D : Type} [PostgresClient D] {reserved : String → Bool} {changes : String → Set String}
  {tables : D → Tables}

structure Follows (s : Sink D) (n : Made) : Prop where
  relations : s.relationCache = RelationCache.fromRels n.known
  upserts : MadeOf upsertText s.upsertStmtCache n.upserts
  deletes : MadeOf deleteText s.deleteStmtCache n.deletes

omit [PostgresClient D] in
theorem first_follows (client : D) (relations : Oid → Option Relation) :
    Follows (new client relations) (first relations) :=
  ⟨rfl, fun _ => rfl, fun _ => rfl⟩

theorem step_event (event : ChangeEvent) (s s' : Sink D) (h : step (.event event) s = some s') :
    s' = (onEvent event s).1 := by
  simp only [StatementCache.step] at h
  cases hr : onEvent event s with
  | mk t answer =>
    rw [hr] at h
    split at h
    · cases h
    · next heq =>
      cases heq
      cases h
      rfl

theorem step_follows (h : Postgres changes tables) (call : Call) (s s' : Sink D)
    (n : Made) (hs : Follows s n) (hstep : step call s = some s') : Follows s' (follow s n call) := by
  obtain ⟨hrelations, hupserts, hdeletes⟩ := hs
  cases call with
  | relation relation =>
    simp only [StatementCache.step, onRelation, Option.some.injEq] at hstep
    subst hstep
    constructor
    · show s.relationCache.update relation = _
      rw [hrelations, RelationCache.update_fromRels]
      rfl
    · exact hupserts
    · exact hdeletes
  | event event =>
    have happlies := onEvent_applies h event s n.known hrelations
    rw [step_event event s s' hstep]
    constructor
    · exact happlies.relations
    · exact filled_madeOf happlies.upserts hupserts
    · exact filled_madeOf happlies.deletes hdeletes

theorem event_inUse (event : ChangeEvent) (s : Sink D) (n : Made) (hs : Follows s n) (oid : Oid)
    (rel : Relation) (hrel : n.known oid = some rel) :
    inUse (follow s n (.event event)) oid rel = inUse n oid rel := by
  show [_, _] = [_, _]
  rw [follow, join_getD n.known _ _ hs.upserts oid rel hrel,
    join_getD n.known _ _ hs.deletes oid rel hrel]

theorem step_names (call : Call) (s : Sink D) (n : Made) (hs : Follows s n) (hn : NamesApart n)
    (h : arrives n call) : NamesApart (follow s n call) := by
  cases call with
  | relation relation => exact arrives_names n relation hn h
  | event event =>
    intro oid oid' rel rel' hrel hrel' hne
    have happart := hn oid oid' rel rel' hrel hrel' hne
    unfold GoApart at happart ⊢
    rwa [event_inUse event s n hs oid rel hrel, event_inUse event s n hs oid' rel' hrel']

omit [PostgresClient D] in
theorem own_names (hsql : Sql reserved changes) (s : Sink D) (n : Made) (hs : Follows s n)
    (oid : Oid) (rel : Relation)
    (hword : ∀ used ∈ inUse n oid rel, isWord used.name.toList = true) (table : String)
    (h : table ∈ ownTables changes s oid rel) :
    ∃ used ∈ inUse n oid rel, folded used.name = table := by
  rw [ownTables, madeOf_inHand hs.upserts, madeOf_inHand hs.deletes] at h
  rw [inUse, List.forall_mem_cons, List.forall_mem_singleton] at hword
  rcases h with h | h
  · exact ⟨_, List.mem_cons_self, (hsql.upsert _ _ _ hword.1 h).symm⟩
  · exact ⟨_, List.mem_cons_of_mem _ List.mem_cons_self, (hsql.delete _ _ hword.2 h).symm⟩

omit [PostgresClient D] in
theorem names_separate (hsql : Sql reserved changes) (s : Sink D) (n : Made) (hs : Follows s n)
    (hn : NamesApart n) : Separate changes s n.known := by
  intro oid oid' rel rel' hrel hrel' hne
  have happart := hn oid oid' rel rel' hrel hrel' hne
  have hword : ∀ used ∈ inUse n oid rel, isWord used.name.toList = true := by
    intro used hused
    exact (happart used hused _ List.mem_cons_self).1
  have hword' : ∀ used ∈ inUse n oid' rel', isWord used.name.toList = true := by
    intro used hused
    exact (happart _ List.mem_cons_self used hused).2.1
  rw [Set.disjoint_left]
  intro table htable htable'
  obtain ⟨used, hused, rfl⟩ := own_names hsql s n hs oid rel hword table htable
  obtain ⟨used', hused', heq⟩ := own_names hsql s n hs oid' rel' hword' _ htable'
  exact (happart used hused used' hused').2.2 heq.symm

/-- The loaded relations go by names of their own, and so does each that arrives. -/
def OwnNames (client : D) (relations : Oid → Option Relation) (calls : List Call) : Prop :=
  NamesApart (first relations) ∧
    Meets (pair step follow) (fun q call => arrives q.2 call) calls
      (new client relations, first relations)

theorem names_keep (h : Postgres changes tables) (hsql : Sql reserved changes) (client : D)
    (relations : Oid → Option Relation) (calls : List Call)
    (hnames : OwnNames client relations calls) :
    ∀ pre post s, calls = pre ++ post → run step pre (new client relations) = some s →
      KeepsApart changes tables s (pre.foldl latest relations) := by
  apply (always_pair_iff Made.known latest follow_known (KeepsApart changes tables)
    calls (new client relations, first relations)).mp
  apply always_of_meets (fun q => Follows q.1 q.2 ∧ NamesApart q.2) _ _ _ calls _
    ⟨first_follows client relations, hnames.1⟩
    (meets_of_forall calls _ (fun (_ : Call) _ => trivial)) hnames.2
  · rintro ⟨s, n⟩ ⟨hs, hn⟩
    exact separate_keepsApart h s n.known hs.relations (names_separate hsql s n hs hn)
  · rintro call ⟨s, n⟩ ⟨s', n'⟩ ⟨hs, hn⟩ _ harrives hpair
    obtain ⟨hstep, hfollow⟩ := pair_some hpair
    dsimp only at hstep hfollow
    rw [hfollow]
    exact ⟨step_follows h call s s' n hs hstep, step_names call s n hs hn harrives⟩

end Runs

section Regular
variable (reserved : String → Bool)

/-- Names that are read as they are, and an upsert that can be read. -/
structure Regular (rel : Relation) : Prop where
  plain : ∀ x ∈ rel.name :: (extractFieldsNames rel ++ extractKeysRel rel),
    isPlain x.toList = true ∧ reserved x = false
  keyed : extractKeysRel rel ≠ []
  last : (extractFieldsNames rel).length = (extractKeysRel rel).length ∨
    StatementNames.lastIsKey (extractFieldsNames rel) (extractKeysRel rel) = false

instance (rel : Relation) : Decidable (Regular reserved rel) :=
  decidable_of_iff ((∀ x ∈ rel.name :: (extractFieldsNames rel ++ extractKeysRel rel),
      isPlain x.toList = true ∧ reserved x = false) ∧ extractKeysRel rel ≠ [] ∧
    ((extractFieldsNames rel).length = (extractKeysRel rel).length ∨
      StatementNames.lastIsKey (extractFieldsNames rel) (extractKeysRel rel) = false))
    ⟨fun h => ⟨h.1, h.2.1, h.2.2⟩, fun h => ⟨h.plain, h.keyed, h.last⟩⟩

def AllRegular (n : Made) : Prop :=
  ∀ oid rel, n.known oid = some rel ∨ n.upserts oid = some rel ∨ n.deletes oid = some rel →
    Regular reserved rel

def regularCall : Call → Prop
  | .relation relation => Regular reserved relation
  | .event _ => True

variable {reserved}

theorem regular_tables {changes : String → Set String} (hsql : Sql reserved changes) (rel : Relation)
    (h : Regular reserved rel) :
    rel.name ∈ changes (upsertText rel) ∧ rel.name ∈ changes (deleteText rel) := by
  have hfields : extractFieldsNames rel ≠ [] := by
    intro hnone
    have hno : rel.fields = [] := List.map_eq_nil_iff.mp hnone
    exact h.keyed (by rw [extractKeysRel, hno]; rfl)
  have hplain := h.plain
  rw [List.forall_mem_cons, List.forall_mem_append] at hplain
  have hupsert := StatementNames.read_upsert reserved rel.name _ _ hfields h.keyed h.plain
  rw [if_pos h.last] at hupsert
  have hdelete := StatementNames.read_delete reserved rel.name _ h.keyed hplain.1 hplain.2.2
  exact ⟨hsql.read _ _ hupsert, hsql.read _ _ hdelete⟩

theorem regular_folded (rel : Relation) (h : Regular reserved rel) :
    isWord rel.name.toList = true ∧ folded rel.name = rel.name := by
  have hplain := (h.plain rel.name List.mem_cons_self).1
  constructor
  · rw [isPlain, Bool.and_eq_true] at hplain
    exact hplain.1
  · rw [folded, map_toLower _ hplain, String.ofList_toList]

theorem inUse_regular (n : Made) (hn : AllRegular reserved n) (oid : Oid) (rel : Relation)
    (hrel : n.known oid = some rel) (used : Relation) (hused : used ∈ inUse n oid rel) :
    Regular reserved used := by
  have hgot : ∀ made : Option Relation, (∀ r, made = some r → Regular reserved r) →
      Regular reserved (made.getD rel) := by
    intro made hmade
    cases made with
    | none => exact hn oid rel (Or.inl hrel)
    | some r => exact hmade r rfl
  rw [inUse, List.mem_cons, List.mem_singleton] at hused
  rcases hused with rfl | rfl
  · exact hgot _ (fun r hr => hn oid r (Or.inr (Or.inl hr)))
  · exact hgot _ (fun r hr => hn oid r (Or.inr (Or.inr hr)))

variable {D : Type} {changes : String → Set String}

theorem own_regular (hsql : Sql reserved changes) (s : Sink D) (n : Made) (hs : Follows s n)
    (hn : AllRegular reserved n) (oid : Oid) (rel : Relation) (hrel : n.known oid = some rel) (used : Relation)
    (hused : used ∈ inUse n oid rel) : used.name ∈ ownTables changes s oid rel := by
  have htables := regular_tables hsql used (inUse_regular n hn oid rel hrel used hused)
  rw [ownTables, madeOf_inHand hs.upserts, madeOf_inHand hs.deletes]
  rw [inUse, List.mem_cons, List.mem_singleton] at hused
  rcases hused with rfl | rfl
  · exact Or.inl htables.1
  · exact Or.inr htables.2

theorem separate_names (hsql : Sql reserved changes) (s : Sink D) (n : Made) (hs : Follows s n)
    (hn : AllRegular reserved n) (hseparate : Separate changes s n.known) : NamesApart n := by
  intro oid oid' rel rel' hrel hrel' hne used hused used' hused'
  have hmem := own_regular hsql s n hs hn oid rel hrel used hused
  have hmem' := own_regular hsql s n hs hn oid' rel' hrel' used' hused'
  obtain ⟨hword, hfold⟩ := regular_folded used (inUse_regular n hn oid rel hrel used hused)
  obtain ⟨hword', hfold'⟩ := regular_folded used' (inUse_regular n hn oid' rel' hrel' used' hused')
  refine ⟨hword, hword', ?_⟩
  rw [hfold, hfold']
  intro heq
  rw [← heq] at hmem'
  exact Set.disjoint_left.mp (hseparate oid oid' rel rel' hrel hrel' hne) hmem hmem'

variable [PostgresClient D] {tables : D → Tables}

theorem step_regular (call : Call) (s : Sink D) (n : Made) (hn : AllRegular reserved n)
    (hcall : regularCall reserved call) : AllRegular reserved (follow s n call) := by
  intro oid rel h
  cases call with
  | relation relation =>
    rcases h with h | h
    · by_cases ho : oid = relation.relationOid
      · subst ho
        rw [follow_known, latest, Function.update_self, Option.some.injEq] at h
        rwa [← h]
      · rw [follow_known, latest, Function.update_of_ne ho] at h
        exact hn oid rel (Or.inl h)
    · exact hn oid rel (Or.inr h)
  | event event =>
    have hjoin : ∀ (before after : StatementCache) (made : Oid → Option Relation),
        join n.known before after made oid = some rel →
          n.known oid = some rel ∨ made oid = some rel := by
      intro before after made hmade
      unfold join at hmade
      split_ifs at hmade
      · exact Or.inl hmade
      · exact Or.inr hmade
    rcases h with h | h | h
    · exact hn oid rel (Or.inl h)
    · rcases hjoin _ _ _ h with h | h
      · exact hn oid rel (Or.inl h)
      · exact hn oid rel (Or.inr (Or.inl h))
    · rcases hjoin _ _ _ h with h | h
      · exact hn oid rel (Or.inl h)
      · exact hn oid rel (Or.inr (Or.inr h))

/-- Where all names are regular, only relations with names of their own keep
apart. -/
theorem keeps_names (h : Postgres changes tables) (hsql : Sql reserved changes)
    (ht : Taken D changes) (client : D) (relations : Oid → Option Relation) (calls : List Call)
    (hloaded : ∀ oid rel, relations oid = some rel → Regular reserved rel)
    (hcalls : ∀ call ∈ calls, regularCall reserved call)
    (hkeeps : ∀ pre post s, calls = pre ++ post → run step pre (new client relations) = some s →
      KeepsApart changes tables s (pre.foldl latest relations)) :
    OwnNames client relations calls := by
  have hfirst : AllRegular reserved (first relations) := by
    rintro oid rel (hrel | hrel | hrel)
    · exact hloaded oid rel hrel
    · cases hrel
    · cases hrel
  have hfollows := first_follows client relations
  have hstart : NamesApart (first relations) := by
    have hapart := hkeeps [] calls (new client relations) rfl rfl
    exact separate_names hsql _ _ hfollows hfirst (keepsApart_separate ht _ relations rfl hapart)
  refine ⟨hstart, ?_⟩
  apply (prefixes_iff_meets Made.known latest follow_known
    (fun s n => (Follows s n ∧ AllRegular reserved n) ∧ NamesApart n)
    (KeepsApart changes tables) (fun _ call => regularCall reserved call) _ _ _ calls
    (new client relations) (first relations) ⟨⟨hfollows, hfirst⟩, hstart⟩
    (meets_of_forall calls relations hcalls)).mp hkeeps
  · rintro s n ⟨⟨hs, _⟩, hn⟩
    exact separate_keepsApart h s n.known hs.relations (names_separate hsql s n hs hn)
  · rintro call s s' n ⟨⟨hs, hregular⟩, hn⟩ hcall harrives hstep
    exact ⟨⟨step_follows h call s s' n hs hstep, step_regular call s n hregular hcall⟩,
      step_names call s n hs hn harrives⟩
  · rintro call s s' n ⟨⟨hs, hregular⟩, _⟩ hcall hstep hapart
    have hs' := step_follows h call s s' n hs hstep
    have hseparate := keepsApart_separate ht s' _ hs'.relations hapart
    have hnames := separate_names hsql s' _ hs' (step_regular call s n hregular hcall) hseparate
    cases call with
    | relation relation => exact names_arrive n relation hnames
    | event event => trivial

/-- Over every sequence of calls, from any loaded relations: in every state the
known relations keep apart if they go by names of their own; and only if, where
the names are regular and the server takes what it can read. -/
theorem keepsApart_of_names (h : Postgres changes tables) (hsql : Sql reserved changes)
    (client : D) (relations : Oid → Option Relation) (calls : List Call) :
    (OwnNames client relations calls →
        ∀ pre post s, calls = pre ++ post → run step pre (new client relations) = some s →
          KeepsApart changes tables s (pre.foldl latest relations)) ∧
      (Taken D changes →
        (∀ oid rel, relations oid = some rel → Regular reserved rel) →
        (∀ call ∈ calls, regularCall reserved call) →
        (∀ pre post s, calls = pre ++ post → run step pre (new client relations) = some s →
          KeepsApart changes tables s (pre.foldl latest relations)) →
        OwnNames client relations calls) :=
  ⟨names_keep h hsql client relations calls, fun ht => keeps_names h hsql ht client relations calls⟩

end Regular

section Schemas

def publicUsers : Relation :=
  ⟨1, "users", "public", [⟨true, "id", .int4⟩, ⟨false, "name", .text⟩], .keys⟩

def auditUsers : Relation :=
  ⟨2, "users", "audit", [⟨true, "id", .int4⟩, ⟨false, "name", .text⟩], .keys⟩

def auditVisits : Relation := ⟨3, "visits", "audit", [⟨true, "id", .int4⟩], .keys⟩

def auditTrips : Relation := ⟨3, "Trips", "audit", [⟨true, "id", .int4⟩], .keys⟩

def columnsOf (table : String) : List String := if table = "visits" then ["id"] else ["id", "name"]

def noWord (_ : String) : Bool := false

def loaded (rels : List Relation) (oid : Oid) : Option Relation :=
  rels.find? (fun rel => rel.relationOid = oid)

def server : Reading noWord columnsOf := ⟨fun _ => ∅⟩

theorem loaded_single (rel r : Relation) (oid : Oid) (h : loaded [rel] oid = some r) :
    r = rel ∧ oid = rel.relationOid := by
  have hmem := List.mem_singleton.mp (List.mem_of_find?_eq_some h)
  have hoid := List.find?_some h
  rw [hmem, decide_eq_true_eq] at hoid
  exact ⟨hmem, hoid.symm⟩

/-- A row of one schema's table arrives in the other's. -/
theorem schemas_share_users :
    qualified publicUsers ≠ qualified auditUsers ∧
      ¬ KeepsApart (readTables noWord) Reading.tables
        (new server (loaded [publicUsers, auditUsers])) (loaded [publicUsers, auditUsers]) ∧
      (onEvent ⟨.insert [.int4 7, .text "x"], 2⟩
          (new server (loaded [publicUsers, auditUsers]))).1.client.tables "users" =
        {[.int4 7, .text "x"]} := by
  have hregular : Regular noWord publicUsers ∧ Regular noWord auditUsers := by
    decide +kernel
  refine ⟨by decide, ?_, by decide +kernel⟩
  intro h
  have hseparate := keepsApart_separate Reading.taken _ _ rfl h 1 2 publicUsers auditUsers rfl rfl
    (by decide)
  have husers := regular_tables readTables_sql publicUsers hregular.1
  have husers' := regular_tables readTables_sql auditUsers hregular.2
  exact Set.disjoint_left.mp hseparate (Or.inl husers.1) (Or.inl husers'.1)

def renamed : List Call :=
  [.relation auditVisits, .event ⟨.insert [.int4 7], 3⟩, .relation auditTrips,
    .event ⟨.delete [.int4 7], 3⟩]

theorem renamed_names : OwnNames server (loaded [publicUsers]) renamed := by
  constructor
  · intro oid oid' rel rel' hrel hrel' hne
    rw [(loaded_single _ rel oid hrel).1, (loaded_single _ rel' oid' hrel').1] at hne
    exact absurd rfl hne
  · intro q hq
    obtain ⟨hstep, hmade⟩ := pair_some hq
    have hfirst : q.1 = (onRelation auditVisits (new server (loaded [publicUsers]))).1 :=
      (Option.some.inj hstep).symm
    constructor
    · intro oid rel _ hrel _
      obtain ⟨rfl, rfl⟩ := loaded_single publicUsers rel oid hrel
      decide +kernel
    · intro q' hq'
      refine ⟨trivial, fun _ _ => ⟨?_, fun _ _ => ⟨trivial, trivial⟩⟩⟩
      show arrives q'.2 (.relation auditTrips)
      rw [(pair_some hq').2, hmade, hfirst]
      intro oid rel ho hrel _
      rw [follow_known, follow_known] at hrel
      have hloaded : loaded [publicUsers] oid = some rel :=
        (Function.update_of_ne ho _ _).symm.trans hrel
      obtain ⟨rfl, rfl⟩ := loaded_single publicUsers rel oid hloaded
      decide +kernel

theorem renamed_keep_apart :
    ∃ s, run step renamed (new server (loaded [publicUsers])) = some s ∧
      KeepsApart (readTables noWord) Reading.tables s
        (renamed.foldl latest (loaded [publicUsers])) := by
  have hsome : (run step renamed (new server (loaded [publicUsers]))).isSome = true := by
    decide +kernel
  obtain ⟨s, hrun⟩ := Option.isSome_iff_exists.mp hsome
  refine ⟨s, hrun, ?_⟩
  exact (keepsApart_of_names Reading.postgres readTables_sql server (loaded [publicUsers])
    renamed).1 renamed_names renamed [] s rfl hrun

end Schemas

end CDC.TableNames
