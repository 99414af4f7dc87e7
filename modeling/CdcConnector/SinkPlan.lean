import CdcConnector.SinkTables

/-!
# What an event does

The statement of an event is the one prepared before for its oid, or that of
the relation known now. So what an event does to the tables, and which
statement is prepared after it, depends on these relations only, not on the
tables, and the sink does just that.
-/

set_option autoImplicit false

namespace CDC.SinkPlan
open CDC.Fallible CDC.Event CDC.SinkModel CDC.SinkStatements CDC.PostgresSink CDC.SinkDatabase
open CDC.SinkTable CDC.StatementCache CDC.SinkTables

structure Prepared where
  upserts : Oid → Option Relation
  deletes : Oid → Option Relation

def boundOld (known : Relation) (old : List PgValue) : List PgValue :=
  match known.replicaId with
  | .row => old
  | .keys => keptValues known old

theorem deleteParams_bound (known : Relation) (oid : Oid) (old : List PgValue) :
    deleteParams (some (extractKeyIdentity known)) oid old = .ok (boundOld known old) := by
  unfold extractKeyIdentity boundOld
  cases known.replicaId <;> rfl

section Plan
variable (svc : Service)

/-- What a statement with these parameters does; nothing where it fails, and
no value where the process ends. -/
def statementEffect (columns : List String) (name : String) (command : Command)
    (params : List PgValue) : Option (List Cell → Bool) → Option (Tables → Tables)
  | none => some id
  | some admits =>
    if params.length ≠ command.arity then some id
    else
      match convert (params.map toSql) with
      | .ok values =>
        if admits values then some (onTable name (command.run columns values)) else some id
      | .error (.error _) => some id
      | .error .panic => none

def upsertEffect (row : List PgValue) : Option Relation → Option (Tables → Tables)
  | some rel => statementEffect (svc.columns rel) rel.name (upsertCommand rel) row (svc.upserts rel)
  | none => some id

def deleteEffect (old : List PgValue) :
    Option Relation → Option Relation → Option (Tables → Tables)
  | some rel, some known =>
    statementEffect (svc.columns rel) rel.name (deleteCommand rel) (boundOld known old)
      (svc.deletes rel)
  | _, _ => some id

/-- The relation known for the oid now and those prepared before decide. -/
def effect (event : ChangeEvent) (known : Option Relation) (p : Prepared) :
    Option (Tables → Tables) :=
  match mergeToasted event.op with
  | .error _ => some id
  | .ok (.insert row) | .ok (.update _ row) => upsertEffect svc row ((p.upserts event.rel).or known)
  | .ok (.delete old) => deleteEffect svc old ((p.deletes event.rel).or known) known

/-- A statement that is refused is not prepared. -/
def prepare (answers : Relation → Option (List Cell → Bool)) (oid : Oid) (known : Option Relation)
    (prepared : Oid → Option Relation) : Oid → Option Relation :=
  Function.update prepared oid (((prepared oid).or known).filter (fun rel => (answers rel).isSome))

def next (event : ChangeEvent) (known : Option Relation) (p : Prepared) : Prepared :=
  match mergeToasted event.op with
  | .error _ => p
  | .ok (.insert _) | .ok (.update _ _) =>
    { p with upserts := prepare svc.upserts event.rel known p.upserts }
  | .ok (.delete _) => { p with deletes := prepare svc.deletes event.rel known p.deletes }

end Plan

def statements (text : Relation → String) (prepared : Oid → Option Relation) : StatementCache :=
  fun oid => (prepared oid).map (fun rel => ⟨text rel⟩)

theorem statements_update (text : Relation → String) (prepared : Oid → Option Relation) (oid : Oid)
    (rel : Relation) :
    statements text (Function.update prepared oid (some rel)) =
      Function.update (statements text prepared) oid (some ⟨text rel⟩) := by
  funext o
  by_cases ho : o = oid
  · rw [ho, statements, Function.update_self, Function.update_self]
    rfl
  · rw [statements, Function.update_of_ne ho, Function.update_of_ne ho, statements]

/-- Prepared statements are of relations that may come and were taken. -/
def Allowed (rels : Oid → Relation → Prop) (answers : Relation → Option (List Cell → Bool))
    (prepared : Oid → Option Relation) : Prop :=
  ∀ oid rel, prepared oid = some rel → rels oid rel ∧ (answers rel).isSome = true

theorem used_may_come {rels : Oid → Relation → Prop}
    {answers : Relation → Option (List Cell → Bool)} {prepared : Oid → Option Relation}
    (h : Allowed rels answers prepared) (oid : Oid) (known : Option Relation)
    (hknown : ∀ rel, known = some rel → rels oid rel) (rel : Relation)
    (hrel : (prepared oid).or known = some rel) : rels oid rel := by
  rcases Option.or_eq_some_iff.mp hrel with hp | ⟨_, hk⟩
  · exact (h oid rel hp).1
  · exact hknown rel hk

theorem allowed_prepare {rels : Oid → Relation → Prop}
    {answers : Relation → Option (List Cell → Bool)} {prepared : Oid → Option Relation}
    (h : Allowed rels answers prepared) (oid : Oid) (known : Option Relation)
    (hknown : ∀ rel, known = some rel → rels oid rel) :
    Allowed rels answers (prepare answers oid known prepared) := by
  intro o rel ho
  unfold prepare at ho
  by_cases heq : o = oid
  · subst heq
    rw [Function.update_self, Option.filter_eq_some_iff] at ho
    exact ⟨used_may_come h o known hknown rel ho.1, ho.2⟩
  · rw [Function.update_of_ne heq] at ho
    exact h o rel ho

theorem prepare_none {answers : Relation → Option (List Cell → Bool)}
    {prepared : Oid → Option Relation} {oid : Oid} {known : Option Relation}
    (hnone : (prepared oid).or known = none) : prepare answers oid known prepared = prepared := by
  unfold prepare
  rw [hnone, Option.filter_none, ← (Option.or_eq_none_iff.mp hnone).1, Function.update_eq_self]

structure Holds {D : Type} (svc : Service) (rels : Oid → Relation → Prop) (s : Sink D)
    (known : Oid → Option Relation) (p : Prepared) : Prop where
  relations : s.relationCache = RelationCache.fromRels known
  upserts : s.upsertStmtCache = statements upsertText p.upserts
  deletes : s.deleteStmtCache = statements deleteText p.deletes
  known_may_come : ∀ oid rel, known oid = some rel → rels oid rel
  upserts_allowed : Allowed rels svc.upserts p.upserts
  deletes_allowed : Allowed rels svc.deletes p.deletes

theorem holds_new {D : Type} (svc : Service) (rels : Oid → Relation → Prop) (d : D)
    (known : Oid → Option Relation) (hcome : ∀ oid rel, known oid = some rel → rels oid rel) :
    Holds svc rels (new d known) known ⟨fun _ => none, fun _ => none⟩ where
  relations := rfl
  upserts := rfl
  deletes := rfl
  known_may_come := hcome
  upserts_allowed _ _ h := by cases h
  deletes_allowed _ _ h := by cases h

def Given (r : Outcome SinkError Statement) (text : String) :
    Option (List Cell → Bool) → Prop
  | some _ => r = .ok ⟨text⟩
  | none => ∃ e, r = fail (.platform e)

theorem given_refused {α : Type} {r : Outcome SinkError Statement} {text : String}
    {answer : Option (List Cell → Bool)} (h : Given r text answer) (e : SinkError)
    {g : Statement → Outcome SinkError α} (hg : ∀ stmt, g stmt = fail e) :
    ∃ e', (r >>= g) = fail e' := by
  cases answer with
  | some admits =>
    have hr : r = .ok ⟨text⟩ := h
    exact ⟨e, by rw [hr, ok_bind, hg]⟩
  | none =>
    obtain ⟨text, hr⟩ := h
    exact ⟨.platform text, by rw [hr]; rfl⟩

section Sink
variable {D : Type} [PostgresClient D]

theorem getStatement_unknown (text : Relation → String) (known prepared : Oid → Option Relation)
    (client : D) (oid : Oid) (hnone : (prepared oid).or (known oid) = none) :
    getStatement text known client oid (statements text prepared) =
      ((client, statements text prepared), fail (.unknownRelation oid)) := by
  rw [Option.or_eq_none_iff] at hnone
  simp only [getStatement, statements, hnone.1, hnone.2, Option.map_none]

variable {tables : D → Tables}

theorem getStatement_planned {columns : List String} {text : Relation → String} {command : Command}
    {answers : Relation → Option (List Cell → Bool)} {rel : Relation}
    (hu : Understood tables columns rel.name (text rel) command (answers rel))
    (known prepared : Oid → Option Relation)
    (hprepared : ∀ oid rel, prepared oid = some rel → (answers rel).isSome = true)
    (client : D) (oid : Oid) (hrel : (prepared oid).or (known oid) = some rel) :
    ∃ d r, getStatement text known client oid (statements text prepared) =
        ((d, statements text (prepare answers oid (known oid) prepared)), r) ∧
      tables d = tables client ∧ Given r (text rel) (answers rel) := by
  unfold prepare
  rw [hrel]
  cases hp : prepared oid with
  | some rel' =>
    rw [hp, Option.some_or, Option.some.injEq] at hrel
    subst hrel
    have hsome := hprepared oid rel' hp
    have hsame : Function.update prepared oid (some rel') = prepared := by
      rw [← hp, Function.update_eq_self]
    have hget : getStatement text known client oid (statements text prepared) =
        ((client, statements text prepared), .ok ⟨text rel'⟩) := by
      simp only [getStatement, statements, hp, Option.map_some]
    rw [Option.filter_some, if_pos hsome, hsame, hget]
    obtain ⟨admits, hans⟩ := Option.isSome_iff_exists.mp hsome
    exact ⟨client, _, rfl, rfl, by rw [hans]; rfl⟩
  | none =>
    rw [hp, Option.none_or] at hrel
    cases hans : answers rel with
    | some admits =>
      rw [hans] at hu
      obtain ⟨d, hprep, htables⟩ := Takes.prepared hu client
      rw [Option.filter_some, hans, Option.isSome_some, if_pos rfl, statements_update]
      simp only [getStatement, statements, hp, hrel, Option.map_none, prepareStatement, hprep]
      exact ⟨d, _, rfl, htables, rfl⟩
    | none =>
      rw [hans] at hu
      obtain ⟨d, e, hprep, htables⟩ := Refuses.refused hu client
      have hsame : Function.update prepared oid none = prepared := by
        rw [← hp, Function.update_eq_self]
      rw [Option.filter_some, hans, Option.isSome_none, if_neg Bool.false_ne_true, hsame]
      simp only [getStatement, statements, hp, hrel, Option.map_none, prepareStatement, hprep]
      exact ⟨d, _, rfl, htables, _, rfl⟩

theorem platform_panicked (r : Outcome String Unit) : platform r = panicked ↔ r = panicked := by
  cases r with
  | ok u =>
    simp only [platform, panicked]
    constructor <;> intro h <;> cases h
  | error x =>
    cases x with
    | error e =>
      simp only [platform, panicked, fail]
      constructor <;> intro h <;> cases h
    | panic => exact ⟨fun _ => rfl, fun _ => rfl⟩

theorem onEvent_refused (event : ChangeEvent) (k k' : Sink D) (e : SinkError)
    (hp : prepareEvent event k = (k', fail e)) : onEvent event k = (k', fail e) := by
  unfold onEvent
  rw [hp]
  rfl

def Did (effect : Option (Tables → Tables)) (panics : Prop) (before after : Tables) : Prop :=
  match effect with
  | some f => ¬ panics ∧ after = f before
  | none => panics ∧ after = before

omit [PostgresClient D] in
theorem did_nothing (e : SinkError) (before : Tables) :
    Did (some id) ((fail e : Answer) = panicked) before before := by
  refine ⟨fun he => ?_, rfl⟩
  cases he

theorem execute_did {columns : List String} {name text : String} {command : Command}
    {admits : List Cell → Bool} (h : Takes tables columns name text command admits)
    (params : List PgValue) (d : D) :
    Did (statementEffect columns name command params (some admits))
      ((PostgresClient.execute ⟨text⟩ (params.map toSql) d).2 = panicked) (tables d)
      (tables (PostgresClient.execute ⟨text⟩ (params.map toSql) d).1) := by
  unfold statementEffect
  by_cases hlen : params.length = command.arity
  · have harity : (params.map toSql).length = command.arity := by rw [List.length_map, hlen]
    simp only [hlen, ne_eq, not_true_eq_false, if_false]
    cases hc : convert (params.map toSql) with
    | ok values =>
      by_cases hadmits : admits values = true
      · obtain ⟨d', hex, htables⟩ := h.executed _ values d harity hc hadmits
        simp [hadmits, hex, Did, htables]
      · obtain ⟨d', e, hex, htables⟩ := h.rejected _ values d harity hc (by simpa using hadmits)
        simp [hadmits, hex, Did, htables]
    | error x =>
      obtain ⟨d', hex, htables⟩ := h.unconverted _ x d harity hc
      cases x with
      | panic => simp [hex, Did, htables, panicked]
      | error e => simp [hex, Did, htables, panicked]
  · obtain ⟨d', e, hex, htables⟩ := h.short (params.map toSql) d (by rwa [List.length_map])
    simp [hlen, hex, Did, htables]

theorem statement_did {columns : List String} {name text : String} {command : Command}
    {answer : Option (List Cell → Bool)} (hu : Understood tables columns name text command answer)
    (event : ChangeEvent) (k k' : Sink D) (r : Outcome SinkError Statement)
    (hgiven : Given r text answer) (params : List PgValue)
    (hp : prepareEvent event k = (k', r >>= fun stmt => .ok (stmt, params))) :
    Did (statementEffect columns name command params answer) ((onEvent event k).2 = panicked)
      (tables k'.client) (tables (onEvent event k).1.client) := by
  cases answer with
  | none =>
    obtain ⟨e, hr⟩ := hgiven
    subst hr
    rw [onEvent_refused event k k' _ hp]
    exact did_nothing _ (tables k'.client)
  | some admits =>
    have hr : r = .ok ⟨text⟩ := hgiven
    subst hr
    have hdid := execute_did hu params k'.client
    simp only [onEvent, hp, ok_bind, platform_panicked]
    exact hdid

theorem onEvent_holds {svc : Service} {rels : Oid → Relation → Prop} (event : ChangeEvent)
    (s : Sink D) (known : Oid → Option Relation) (p : Prepared)
    (hp : Holds svc rels (prepareEvent event s).1 known p) :
    Holds svc rels (onEvent event s).1 known p := by
  unfold onEvent
  split
  · next heq =>
    rw [heq] at hp
    exact ⟨hp.relations, hp.upserts, hp.deletes, hp.known_may_come, hp.upserts_allowed,
      hp.deletes_allowed⟩
  · next heq =>
    rw [heq] at hp
    exact hp

theorem statement_answer {text : String} {answer : Option (List Cell → Bool)}
    (event : ChangeEvent) (k k' : Sink D) (r : Outcome SinkError Statement)
    (hgiven : Given r text answer) (params : List PgValue)
    (hp : prepareEvent event k = (k', r >>= fun stmt => .ok (stmt, params))) (oid : Oid) :
    (onEvent event k).2 ≠ fail (.unknownRelation oid) := by
  cases answer with
  | none =>
    obtain ⟨e, hr⟩ := hgiven
    subst hr
    rw [onEvent_refused event k k' _ hp]
    exact fun he => by cases he
  | some admits =>
    have hr : r = .ok ⟨text⟩ := hgiven
    subst hr
    simp only [onEvent, hp, ok_bind]
    cases (PostgresClient.execute ⟨text⟩ (params.map toSql) k'.client).2 with
    | ok u => exact fun he => by cases he
    | error x => cases x <;> exact fun he => by cases he

section Event
variable {svc : Service} {rels : Oid → Relation → Prop} (h : Hosts tables svc rels) {s : Sink D}
  {known : Oid → Option Relation} {p : Prepared} (hs : Holds svc rels s known p)
include hs

theorem upsertStatement_unknown (oid : Oid) (hnone : (p.upserts oid).or (known oid) = none) :
    upsertStatement oid s = (s, fail (.unknownRelation oid)) := by
  simp only [upsertStatement, hs.relations, upsertGet_eq, hs.upserts,
    getStatement_unknown upsertText known p.upserts s.client oid hnone]
  rw [← hs.relations, ← hs.upserts]

theorem deleteStatement_unknown (oid : Oid) (hnone : (p.deletes oid).or (known oid) = none) :
    deleteStatement oid s = (s, fail (.unknownRelation oid)) := by
  simp only [deleteStatement, hs.relations, deleteGet_eq, hs.deletes,
    getStatement_unknown deleteText known p.deletes s.client oid hnone]
  rw [← hs.relations, ← hs.deletes]

include h

theorem upsertStatement_planned (oid : Oid) (rel : Relation)
    (hrel : (p.upserts oid).or (known oid) = some rel) :
    ∃ s' r, upsertStatement oid s = (s', r) ∧ tables s'.client = tables s.client ∧
      Given r (upsertText rel) (svc.upserts rel) ∧
      Holds svc rels s' known
        { p with upserts := prepare svc.upserts oid (known oid) p.upserts } := by
  have hcome := used_may_come hs.upserts_allowed oid _ (hs.known_may_come oid) rel hrel
  obtain ⟨d, r, hget, htables, hgiven⟩ := getStatement_planned (h.upserts oid rel hcome) known
    p.upserts (fun o r ho => (hs.upserts_allowed o r ho).2) s.client oid hrel
  simp only [upsertStatement, hs.relations, upsertGet_eq, hs.upserts, hget]
  refine ⟨_, r, rfl, htables, hgiven, rfl, rfl, hs.deletes, hs.known_may_come, ?_,
    hs.deletes_allowed⟩
  exact allowed_prepare hs.upserts_allowed oid _ (hs.known_may_come oid)

theorem deleteStatement_planned (oid : Oid) (rel : Relation)
    (hrel : (p.deletes oid).or (known oid) = some rel) :
    ∃ s' r, deleteStatement oid s = (s', r) ∧ tables s'.client = tables s.client ∧
      Given r (deleteText rel) (svc.deletes rel) ∧
      Holds svc rels s' known
        { p with deletes := prepare svc.deletes oid (known oid) p.deletes } := by
  have hcome := used_may_come hs.deletes_allowed oid _ (hs.known_may_come oid) rel hrel
  obtain ⟨d, r, hget, htables, hgiven⟩ := getStatement_planned (h.deletes oid rel hcome) known
    p.deletes (fun o r ho => (hs.deletes_allowed o r ho).2) s.client oid hrel
  simp only [deleteStatement, hs.relations, deleteGet_eq, hs.deletes, hget]
  refine ⟨_, r, rfl, htables, hgiven, rfl, hs.upserts, rfl, hs.known_may_come, hs.upserts_allowed,
    ?_⟩
  exact allowed_prepare hs.deletes_allowed oid _ (hs.known_may_come oid)

theorem upsert_planned (event : ChangeEvent) (row : List PgValue)
    (hp : prepareEvent event s = ((upsertStatement event.rel s).1,
      (upsertStatement event.rel s).2 >>= fun stmt => .ok (stmt, row))) :
    Did (upsertEffect svc row ((p.upserts event.rel).or (known event.rel)))
        ((onEvent event s).2 = panicked) (tables s.client) (tables (onEvent event s).1.client) ∧
      Holds svc rels (prepareEvent event s).1 known
        { p with upserts := prepare svc.upserts event.rel (known event.rel) p.upserts } := by
  cases hrel : (p.upserts event.rel).or (known event.rel) with
  | none =>
    rw [upsertStatement_unknown hs event.rel hrel] at hp
    rw [onEvent_refused event s s _ hp, hp, prepare_none hrel]
    exact ⟨did_nothing _ _, hs⟩
  | some rel =>
    have hcome := used_may_come hs.upserts_allowed event.rel _ (hs.known_may_come _) rel hrel
    obtain ⟨s', r, hst, htables, hgiven, hholds⟩ := upsertStatement_planned h hs event.rel rel hrel
    rw [hst] at hp
    rw [← htables, hp]
    exact ⟨statement_did (h.upserts _ rel hcome) event s s' r hgiven row hp, hholds⟩

theorem delete_planned (event : ChangeEvent) (old : List PgValue)
    (hm : mergeToasted event.op = .ok (.delete old)) :
    Did (deleteEffect svc old ((p.deletes event.rel).or (known event.rel)) (known event.rel))
        ((onEvent event s).2 = panicked) (tables s.client) (tables (onEvent event s).1.client) ∧
      Holds svc rels (prepareEvent event s).1 known
        { p with deletes := prepare svc.deletes event.rel (known event.rel) p.deletes } := by
  have hp : prepareEvent event s = ((deleteStatement event.rel s).1,
      (deleteStatement event.rel s).2 >>= fun stmt =>
        deleteParams ((deleteStatement event.rel s).1.relationCache.identities event.rel) event.rel
          old >>= fun params => .ok (stmt, params)) := by
    simp only [prepareEvent, hm]
  cases hrel : (p.deletes event.rel).or (known event.rel) with
  | none =>
    rw [deleteStatement_unknown hs event.rel hrel] at hp
    rw [onEvent_refused event s s _ hp, hp, prepare_none hrel]
    exact ⟨did_nothing _ _, hs⟩
  | some rel =>
    have hcome := used_may_come hs.deletes_allowed event.rel _ (hs.known_may_come _) rel hrel
    obtain ⟨s', r, hst, htables, hgiven, hholds⟩ := deleteStatement_planned h hs event.rel rel hrel
    have hid : s'.relationCache.identities event.rel =
        (known event.rel).map extractKeyIdentity := by
      rw [hholds.relations]
      rfl
    rw [hst] at hp
    simp only [hid] at hp
    cases hk : known event.rel with
    | none =>
      -- a prepared statement without a relation known now
      rw [hk] at hp hholds
      obtain ⟨e, he⟩ := given_refused hgiven (.unknownRelation event.rel) (fun _ => rfl)
      rw [Option.map_none] at hp
      have he := hp.trans (congrArg (Prod.mk s') he)
      rw [onEvent_refused event s s' e he, he, ← htables]
      exact ⟨did_nothing _ _, hholds⟩
    | some rel' =>
      rw [hk] at hp hholds
      rw [Option.map_some, deleteParams_bound] at hp
      rw [← htables, hp]
      exact ⟨statement_did (h.deletes _ rel hcome) event s s' r hgiven _ hp, hholds⟩

theorem onEvent_planned (event : ChangeEvent) :
    Did (effect svc event (known event.rel) p) ((onEvent event s).2 = panicked)
        (tables s.client) (tables (onEvent event s).1.client) ∧
      Holds svc rels (onEvent event s).1 known (next svc event (known event.rel) p) := by
  unfold effect next
  cases hm : mergeToasted event.op with
  | error e =>
    have hp : prepareEvent event s = (s, fail .toastedInKeyOnly) := by simp only [prepareEvent, hm]
    refine ⟨?_, onEvent_holds event s known p (by rw [hp]; exact hs)⟩
    rw [onEvent_refused event s s _ hp]
    exact did_nothing _ _
  | ok op =>
    cases op with
    | insert row =>
      obtain ⟨hdid, hholds⟩ := upsert_planned h hs event row (by simp only [prepareEvent, hm])
      exact ⟨hdid, onEvent_holds event s known _ hholds⟩
    | update old row =>
      obtain ⟨hdid, hholds⟩ := upsert_planned h hs event row (by simp only [prepareEvent, hm])
      exact ⟨hdid, onEvent_holds event s known _ hholds⟩
    | delete old =>
      obtain ⟨hdid, hholds⟩ := delete_planned h hs event old hm
      exact ⟨hdid, onEvent_holds event s known _ hholds⟩

theorem onEvent_known (event : ChangeEvent) (rel : Relation) (hk : known event.rel = some rel)
    (oid : Oid) : (onEvent event s).2 ≠ fail (.unknownRelation oid) := by
  have hor : ∀ prepared : Option Relation, ∃ used, prepared.or (known event.rel) = some used := by
    intro prepared
    rw [hk]
    cases prepared <;> exact ⟨_, rfl⟩
  have hwrite : ∀ row, prepareEvent event s = ((upsertStatement event.rel s).1,
      (upsertStatement event.rel s).2 >>= fun stmt => .ok (stmt, row)) →
        (onEvent event s).2 ≠ fail (.unknownRelation oid) := by
    intro row hp
    obtain ⟨used, hrel⟩ := hor (p.upserts event.rel)
    obtain ⟨s', r, hst, _, hgiven, _⟩ := upsertStatement_planned h hs event.rel used hrel
    rw [hst] at hp
    exact statement_answer event s s' r hgiven row hp oid
  cases hm : mergeToasted event.op with
  | error e =>
    rw [onEvent_refused event s s .toastedInKeyOnly (by simp only [prepareEvent, hm])]
    exact fun he => by cases he
  | ok op =>
    cases op with
    | insert row => exact hwrite row (by simp only [prepareEvent, hm])
    | update old row => exact hwrite row (by simp only [prepareEvent, hm])
    | delete old =>
      obtain ⟨used, hrel⟩ := hor (p.deletes event.rel)
      obtain ⟨s', r, hst, _, hgiven, hholds⟩ := deleteStatement_planned h hs event.rel used hrel
      have hid : s'.relationCache.identities event.rel = some (extractKeyIdentity rel) := by
        rw [hholds.relations]
        simp only [RelationCache.fromRels, hk, Option.map_some]
      apply statement_answer event s s' r hgiven (boundOld rel old)
      simp only [prepareEvent, hm, hst, hid, deleteParams_bound, ok_bind]

end Event

end Sink

end CDC.SinkPlan
