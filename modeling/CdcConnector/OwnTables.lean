import Mathlib.Data.Set.Lattice
import Mathlib.Order.CompletePartialOrder
import CdcConnector.SinkTables
import CdcConnector.StatementNames

/-!
# Whose table a statement changes

The texts name a table without its namespace, and a cached text keeps the name
a relation had. In a state of the sink two relations keep to tables of their own
when the tables of their texts in hand, the cached ones first, never meet.
-/

set_option autoImplicit false

namespace CDC.OwnTables
open CDC.Fallible CDC.Event CDC.SinkModel CDC.PostgresSink CDC.PartialRun
open CDC.SinkStatements hiding param Statement
open CDC.SinkDatabase CDC.SinkTables CDC.StatementCache

def qualified (rel : Relation) : String × String := (rel.relNamespace, rel.name)

/-- The text used for the events of a relation: the one in the cache, or the
one of the relation known now. -/
def inHand (text : Relation → String) (cache : StatementCache) (oid : Oid) (rel : Relation) : String :=
  ((cache oid).map SinkStatements.Statement.text).getD (text rel)

section Server
variable {D : Type} [PostgresClient D] (changes : String → Set String)

/-- Preparing a text changes no table, and executing it changes its own only. -/
structure Postgres (tables : D → Tables) : Prop where
  prepared : ∀ text d, tables (PostgresClient.prepare text d).1 = tables d
  executed : ∀ text params d name, name ∉ changes text →
    tables (PostgresClient.execute ⟨text⟩ params d).1 name = tables d name

variable (D) in
def Taken : Prop :=
  ∀ text (d : D), (changes text).Nonempty → (PostgresClient.prepare text d).2 = .ok ()

end Server

section Cache
variable {D : Type} [PostgresClient D]

/-- A lookup leaves the cache, or adds the text of the relation known now where
there was none. -/
def Filled (text : Relation → String) (known : Oid → Option Relation) (oid : Oid)
    (before after : StatementCache) : Prop :=
  after = before ∨ (before oid = none ∧ ∃ rel stmt, known oid = some rel ∧
    stmt.text = text rel ∧ after = Function.update before oid (some stmt))

theorem getStatement_filled (text : Relation → String) (known : Oid → Option Relation) (client : D)
    (oid : Oid) (cache : StatementCache) :
    Filled text known oid cache (getStatement text known client oid cache).1.2 := by
  unfold getStatement
  cases hc : cache oid with
  | some stmt => exact Or.inl rfl
  | none =>
    cases hk : known oid with
    | none => exact Or.inl rfl
    | some rel =>
      dsimp only
      cases hp : prepareStatement (text rel) client with
      | mk client' answer =>
        cases answer with
        | error e => exact Or.inl rfl
        | ok stmt =>
          exact Or.inr ⟨hc, rel, stmt, hk, prepareStatement_text _ _ _ _ hp, rfl⟩

omit [PostgresClient D] in
theorem filled_inHand {text : Relation → String} {known : Oid → Option Relation} {oid : Oid}
    {before after : StatementCache} (h : Filled text known oid before after) (o : Oid) (r : Relation)
    (hr : known o = some r) : inHand text after o r = inHand text before o r := by
  rcases h with rfl | ⟨hnone, rel, stmt, hrel, htext, rfl⟩
  · rfl
  · by_cases ho : o = oid
    · subst ho
      obtain rfl := Option.some.inj (hr.symm.trans hrel)
      simp [inHand, hnone, htext]
    · simp [inHand, ho]

theorem getStatement_text (text : Relation → String) (known : Oid → Option Relation) (client : D)
    (oid : Oid) (cache : StatementCache) (rel : Relation) (hknown : known oid = some rel)
    (stmt : SinkStatements.Statement)
    (h : (getStatement text known client oid cache).2 = .ok stmt) :
    stmt.text = inHand text cache oid rel := by
  unfold getStatement at h
  cases hc : cache oid with
  | some st =>
    rw [hc] at h
    cases h
    simp [inHand, hc]
  | none =>
    rw [hc, hknown] at h
    dsimp only at h
    cases hp : prepareStatement (text rel) client with
    | mk client' answer =>
      rw [hp] at h
      cases answer with
      | error e => cases h
      | ok st =>
        cases h
        simp [inHand, hc, prepareStatement_text _ _ _ _ hp]

variable {changes : String → Set String} {tables : D → Tables}

theorem prepareStatement_tables (h : Postgres changes tables) (text : String) (client : D) :
    tables (prepareStatement text client).1 = tables client := by
  have hprepared := h.prepared text client
  unfold prepareStatement
  split
  · next heq =>
    rw [heq] at hprepared
    exact hprepared
  · next heq =>
    rw [heq] at hprepared
    exact hprepared

theorem getStatement_tables (h : Postgres changes tables) (text : Relation → String)
    (known : Oid → Option Relation) (client : D) (oid : Oid) (cache : StatementCache) :
    tables (getStatement text known client oid cache).1.1 = tables client := by
  unfold getStatement
  cases cache oid with
  | some stmt => rfl
  | none =>
    cases known oid with
    | none => rfl
    | some rel =>
      have htables := prepareStatement_tables h (text rel) client
      dsimp only
      cases hp : prepareStatement (text rel) client with
      | mk client' answer =>
        rw [hp] at htables
        cases answer <;> exact htables

theorem getStatement_taken (h : Taken D changes) (text : Relation → String)
    (known : Oid → Option Relation) (client : D) (oid : Oid) (cache : StatementCache) (rel : Relation)
    (hknown : known oid = some rel) (hchanges : (changes (inHand text cache oid rel)).Nonempty) :
    (getStatement text known client oid cache).2 = .ok ⟨inHand text cache oid rel⟩ := by
  unfold getStatement
  cases hc : cache oid with
  | some stmt => simp [inHand, hc]
  | none =>
    have hin : inHand text cache oid rel = text rel := by simp [inHand, hc]
    rw [hin] at hchanges
    have htaken := h (text rel) client hchanges
    rw [hknown, hin]
    dsimp only
    cases hp : PostgresClient.prepare (text rel) client with
    | mk client' answer =>
      rw [hp] at htaken
      dsimp only at htaken
      subst htaken
      simp only [prepareStatement, hp, cached]

end Cache

section Sink
variable {D : Type} (changes : String → Set String)

/-- The tables that the statements for a relation's events change. -/
def ownTables (s : Sink D) (oid : Oid) (rel : Relation) : Set String :=
  changes (inHand upsertText s.upsertStmtCache oid rel) ∪
    changes (inHand deleteText s.deleteStmtCache oid rel)

/-- Known relations of other names change other tables. -/
def Separate (s : Sink D) (known : Oid → Option Relation) : Prop :=
  ∀ oid oid' rel rel', known oid = some rel → known oid' = some rel' →
    qualified rel ≠ qualified rel' →
    Disjoint (ownTables changes s oid rel) (ownTables changes s oid' rel')

variable [PostgresClient D] {changes} {tables : D → Tables}

/-- What the lookup for an event does, and the statement it finds. -/
structure LooksUp (changes : String → Set String) (tables : D → Tables)
    (known : Oid → Option Relation) (event : ChangeEvent) (s s' : Sink D)
    (found : Outcome SinkError (SinkStatements.Statement × List PgValue)) : Prop where
  relations : s'.relationCache = s.relationCache
  upserts : Filled upsertText known event.rel s.upsertStmtCache s'.upsertStmtCache
  deletes : Filled deleteText known event.rel s.deleteStmtCache s'.deleteStmtCache
  unchanged : tables s'.client = tables s.client
  found : ∀ stmt params rel, found = .ok (stmt, params) → known event.rel = some rel →
    changes stmt.text ⊆ ownTables changes s event.rel rel

theorem upsertStatement_looksUp (h : Postgres changes tables) (event : ChangeEvent) (s : Sink D)
    (known : Oid → Option Relation) (hs : s.relationCache = RelationCache.fromRels known)
    (params : List PgValue) :
    LooksUp changes tables known event s (upsertStatement event.rel s).1
      ((upsertStatement event.rel s).2 >>= fun stmt => .ok (stmt, params)) := by
  simp only [upsertStatement, hs, upsertGet_eq]
  constructor
  · exact hs.symm
  · exact getStatement_filled upsertText known s.client event.rel s.upsertStmtCache
  · exact Or.inl rfl
  · exact getStatement_tables h upsertText known s.client event.rel s.upsertStmtCache
  · intro stmt ps rel hfound hrel
    obtain ⟨st, hst, heq⟩ := (bind_ok_iff _ _ _).mp hfound
    cases heq
    rw [getStatement_text upsertText known s.client event.rel s.upsertStmtCache rel hrel stmt hst]
    exact Set.subset_union_left

theorem deleteStatement_looksUp (h : Postgres changes tables) (event : ChangeEvent) (s : Sink D)
    (known : Oid → Option Relation) (hs : s.relationCache = RelationCache.fromRels known)
    (params : Outcome SinkError (List PgValue)) :
    LooksUp changes tables known event s (deleteStatement event.rel s).1
      ((deleteStatement event.rel s).2 >>= fun stmt => params >>= fun ps => .ok (stmt, ps)) := by
  simp only [deleteStatement, hs, deleteGet_eq]
  constructor
  · exact hs.symm
  · exact Or.inl rfl
  · exact getStatement_filled deleteText known s.client event.rel s.deleteStmtCache
  · exact getStatement_tables h deleteText known s.client event.rel s.deleteStmtCache
  · intro stmt ps rel hfound hrel
    obtain ⟨st, hst, hps⟩ := (bind_ok_iff _ _ _).mp hfound
    obtain ⟨_, _, heq⟩ := (bind_ok_iff _ _ _).mp hps
    cases heq
    rw [getStatement_text deleteText known s.client event.rel s.deleteStmtCache rel hrel stmt hst]
    exact Set.subset_union_right

theorem prepareEvent_looksUp (h : Postgres changes tables) (event : ChangeEvent) (s : Sink D)
    (known : Oid → Option Relation) (hs : s.relationCache = RelationCache.fromRels known) :
    LooksUp changes tables known event s (prepareEvent event s).1 (prepareEvent event s).2 := by
  unfold prepareEvent
  split
  · exact ⟨rfl, Or.inl rfl, Or.inl rfl, rfl, fun _ _ _ he => by cases he⟩
  · exact upsertStatement_looksUp h event s known hs _
  · exact upsertStatement_looksUp h event s known hs _
  · exact deleteStatement_looksUp h event s known hs _

/-- What an event does: it fills the caches, and changes its relation's tables. -/
structure Applies (changes : String → Set String) (tables : D → Tables)
    (known : Oid → Option Relation) (event : ChangeEvent) (s s' : Sink D) : Prop where
  relations : s'.relationCache = RelationCache.fromRels known
  upserts : Filled upsertText known event.rel s.upsertStmtCache s'.upsertStmtCache
  deletes : Filled deleteText known event.rel s.deleteStmtCache s'.deleteStmtCache
  untouched : ∀ rel name, known event.rel = some rel → name ∉ ownTables changes s event.rel rel →
    tables s'.client name = tables s.client name

theorem onEvent_applies (h : Postgres changes tables) (event : ChangeEvent) (s : Sink D)
    (known : Oid → Option Relation) (hs : s.relationCache = RelationCache.fromRels known) :
    Applies changes tables known event s (onEvent event s).1 := by
  obtain ⟨hrelations, hupserts, hdeletes, hunchanged, hfound⟩ := prepareEvent_looksUp h event s known hs
  unfold onEvent
  split
  · next s' stmt params heq =>
    rw [heq] at hrelations hupserts hdeletes hunchanged hfound
    refine ⟨hrelations.trans hs, hupserts, hdeletes, fun rel name hrel hname => ?_⟩
    have hexecuted := h.executed stmt.text (params.map toSql) s'.client name
      (fun hmem => hname (hfound stmt params rel rfl hrel hmem))
    dsimp only
    rw [hexecuted, hunchanged]
  · next s' e heq =>
    rw [heq] at hrelations hupserts hdeletes hunchanged
    refine ⟨hrelations.trans hs, hupserts, hdeletes, fun rel name _ _ => ?_⟩
    dsimp only
    rw [hunchanged]

omit [PostgresClient D] in
theorem applies_own {known : Oid → Option Relation} {event : ChangeEvent} {s s' : Sink D}
    (h : Applies changes tables known event s s') (oid : Oid) (rel : Relation)
    (hrel : known oid = some rel) : ownTables changes s' oid rel = ownTables changes s oid rel := by
  rw [ownTables, ownTables, filled_inHand h.upserts oid rel hrel, filled_inHand h.deletes oid rel hrel]

def executes (s : Sink D) (event : ChangeEvent) (stmt : SinkStatements.Statement) : Prop :=
  ∃ s' params, prepareEvent event s = (s', .ok (stmt, params))

def applyEvents (events : List ChangeEvent) (s : Sink D) : Sink D :=
  events.foldl (fun s event => (onEvent event s).1) s

variable (changes tables) in
/-- The events of two known relations of different names are executed on
different tables, and any events of the one leave the tables of the other. -/
structure KeepsApart (s : Sink D) (known : Oid → Option Relation) : Prop where
  apart : ∀ event event' rel rel' stmt stmt', known event.rel = some rel →
    known event'.rel = some rel' → qualified rel ≠ qualified rel' → executes s event stmt →
      executes s event' stmt' → Disjoint (changes stmt.text) (changes stmt'.text)
  untouched : ∀ oid event' rel rel' stmt', known oid = some rel → known event'.rel = some rel' →
    qualified rel ≠ qualified rel' → executes s event' stmt' →
      ∀ events, (∀ event ∈ events, event.rel = oid) → ∀ name ∈ changes stmt'.text,
        tables (applyEvents events s).client name = tables s.client name

theorem applyEvents_own (h : Postgres changes tables) (known : Oid → Option Relation) (oid : Oid)
    (rel : Relation) (hrel : known oid = some rel) (name : String) (events : List ChangeEvent)
    (hevents : ∀ event ∈ events, event.rel = oid) (s : Sink D)
    (hs : s.relationCache = RelationCache.fromRels known) (hname : name ∉ ownTables changes s oid rel) :
    tables (applyEvents events s).client name = tables s.client name := by
  induction events generalizing s with
  | nil => rfl
  | cons event events ih =>
    rw [List.forall_mem_cons] at hevents
    obtain ⟨hfirst, hrest⟩ := hevents
    have happlies := onEvent_applies h event s known hs
    subst hfirst
    have hlater := ih hrest (onEvent event s).1 happlies.relations
      (by rwa [applies_own happlies _ rel hrel])
    exact hlater.trans (happlies.untouched rel name hrel hname)

theorem executes_own (h : Postgres changes tables) (s : Sink D) (known : Oid → Option Relation)
    (hs : s.relationCache = RelationCache.fromRels known) (event : ChangeEvent) (rel : Relation)
    (hrel : known event.rel = some rel) (stmt : SinkStatements.Statement)
    (hstmt : executes s event stmt) : changes stmt.text ⊆ ownTables changes s event.rel rel := by
  obtain ⟨s', params, hp⟩ := hstmt
  exact (prepareEvent_looksUp h event s known hs).found stmt params rel (congrArg Prod.snd hp) hrel

theorem separate_keepsApart (h : Postgres changes tables) (s : Sink D)
    (known : Oid → Option Relation) (hs : s.relationCache = RelationCache.fromRels known)
    (hseparate : Separate changes s known) : KeepsApart changes tables s known := by
  constructor
  · intro event event' rel rel' stmt stmt' hrel hrel' hne hstmt hstmt'
    exact Set.disjoint_of_subset (executes_own h s known hs event rel hrel stmt hstmt)
      (executes_own h s known hs event' rel' hrel' stmt' hstmt')
      (hseparate event.rel event'.rel rel rel' hrel hrel' hne)
  · intro oid event' rel rel' stmt' hrel hrel' hne hstmt' events hevents name hname
    have hmem := executes_own h s known hs event' rel' hrel' stmt' hstmt' hname
    have hdisjoint := hseparate oid event'.rel rel rel' hrel hrel' hne
    exact applyEvents_own h known oid rel hrel name events hevents s hs
      (Set.disjoint_right.mp hdisjoint hmem)

theorem own_executed (ht : Taken D changes) (s : Sink D) (known : Oid → Option Relation)
    (hs : s.relationCache = RelationCache.fromRels known) (oid : Oid) (rel : Relation)
    (hrel : known oid = some rel) (name : String) (hname : name ∈ ownTables changes s oid rel) :
    ∃ op stmt, executes s ⟨op, oid⟩ stmt ∧ name ∈ changes stmt.text := by
  rcases hname with hname | hname
  · have htaken := getStatement_taken ht upsertText known s.client oid s.upsertStmtCache rel hrel
      ⟨name, hname⟩
    refine ⟨.insert [], ⟨inHand upsertText s.upsertStmtCache oid rel⟩,
      ⟨(upsertStatement oid s).1, [], ?_⟩, hname⟩
    simp only [prepareEvent, mergeToasted, upsertStatement, hs, upsertGet_eq, htaken, ok_bind]
  · have htaken := getStatement_taken ht deleteText known s.client oid s.deleteStmtCache rel hrel
      ⟨name, hname⟩
    have hid : (RelationCache.fromRels known).identities oid = some (extractKeyIdentity rel) := by
      simp only [RelationCache.fromRels, hrel, Option.map_some]
    obtain ⟨params, hparams⟩ : ∃ params,
        deleteParams (some (extractKeyIdentity rel)) oid [] = .ok params := by
      cases extractKeyIdentity rel <;> exact ⟨_, rfl⟩
    refine ⟨.delete [], ⟨inHand deleteText s.deleteStmtCache oid rel⟩,
      ⟨(deleteStatement oid s).1, params, ?_⟩, hname⟩
    simp only [prepareEvent, mergeToasted, deleteStatement, hs, deleteGet_eq, htaken, ok_bind, hid,
      hparams]

theorem keepsApart_separate (ht : Taken D changes) (s : Sink D) (known : Oid → Option Relation)
    (hs : s.relationCache = RelationCache.fromRels known)
    (hapart : KeepsApart changes tables s known) : Separate changes s known := by
  intro oid oid' rel rel' hrel hrel' hne
  rw [Set.disjoint_left]
  intro name hname hname'
  obtain ⟨op, stmt, hstmt, hmem⟩ := own_executed ht s known hs oid rel hrel name hname
  obtain ⟨op', stmt', hstmt', hmem'⟩ := own_executed ht s known hs oid' rel' hrel' name hname'
  have hdisjoint := hapart.apart ⟨op, oid⟩ ⟨op', oid'⟩ rel rel' stmt stmt' hrel hrel' hne hstmt hstmt'
  exact Set.disjoint_left.mp hdisjoint hmem hmem'

end Sink

def readTables (reserved : String → Bool) (text : String) : Set String :=
  {table | ∃ stmt, SqlReader.read reserved text = some stmt ∧ stmt.table = table}

/-- A server that reads a text as one of the two statements and runs it, its
parameters in order. -/
structure Reading (reserved : String → Bool) (columns : String → List String) where
  tables : Tables

namespace Reading
variable {reserved : String → Bool} {columns : String → List String}

def command : SqlReader.Statement → Option Command
  | .upsert _ columns values conflict update =>
    let assigned := SqlReader.Statement.updated update
    if values = (List.range columns.length).map (· + 1) ∧ assigned.all (fun p => p.1 = p.2) = true then
      some (.upsert columns conflict (assigned.map Prod.fst))
    else none
  | .delete _ conditions =>
    if conditions.map Prod.snd = (List.range conditions.length).map (· + 1) then
      some (.delete (conditions.map Prod.fst))
    else none

def prepare (text : String) (d : Reading reserved columns) :
    Reading reserved columns × Except String Unit :=
  (d, if (SqlReader.read reserved text).isSome then .ok () else .error "syntax error")

def execute (stmt : SinkStatements.Statement) (params : List (Outcome String Cell))
    (d : Reading reserved columns) : Reading reserved columns × Outcome String Unit :=
  match SqlReader.read reserved stmt.text with
  | none => (d, fail "syntax error")
  | some read =>
    match command read with
    | none => (d, fail "parameters out of order")
    | some command =>
      if params.length ≠ command.arity then (d, fail "wrong number of parameters")
      else
        match convert params with
        | .ok values => (⟨onTable read.table (command.run (columns read.table) values) d.tables⟩, .ok ())
        | .error e => (d, .error e)

instance : PostgresClient (Reading reserved columns) := ⟨prepare, execute⟩

theorem postgres : Postgres (readTables reserved) (tables : Reading reserved columns → Tables) where
  prepared _ _ := rfl
  executed text params d name hname := by
    simp only [PostgresClient.execute, execute]
    cases hread : SqlReader.read reserved text with
    | none => rfl
    | some read =>
      have hne : name ≠ read.table := fun heq => hname ⟨read, hread, heq.symm⟩
      dsimp only
      split
      · rfl
      · split_ifs
        · rfl
        · split
          · exact Function.update_of_ne hne _ _
          · rfl

theorem taken : Taken (Reading reserved columns) (readTables reserved) := by
  rintro text d ⟨name, read, hread, _⟩
  show (if (SqlReader.read reserved text).isSome then _ else _) = _
  rw [hread]
  rfl

end Reading

end CDC.OwnTables
