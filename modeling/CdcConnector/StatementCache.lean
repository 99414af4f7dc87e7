import CdcConnector.PartialRun
import CdcConnector.PostgresSink

/-!
# Cached statements and the schema

The statement caches are filled from the relation cache and never emptied.
Executed statements follow the latest relation exactly as long as no relation
arrives that would change a statement already cached for it.
-/

set_option autoImplicit false

namespace CDC.StatementCache
open CDC.Fallible CDC.Event CDC.SinkModel CDC.SinkStatements CDC.PostgresSink CDC.PartialRun

inductive Call where
  | relation (relation : Relation)
  | event (event : ChangeEvent)

def upsertText (relation : Relation) : String :=
  UpsertStatement.genStr relation.name (extractFieldsNames relation) (extractKeysRel relation)

def deleteText (relation : Relation) : String :=
  DeleteStatement.genStr relation.name (extractKeysRel relation)

def statementText (relation : Relation) : Op → String
  | .delete _ => deleteText relation
  | _ => upsertText relation

def latest (known : Oid → Option Relation) : Call → Oid → Option Relation
  | .relation relation => Function.update known relation.relationOid (some relation)
  | .event _ => known

section Calls
variable {D : Type}

/-- A relation that arrives changes no statement already cached for it. -/
def fresh (s : Sink D) : Call → Bool
  | .relation relation =>
    (s.upsertStmtCache relation.relationOid).all (fun stmt =>
      decide (stmt.text = upsertText relation)) &&
    (s.deleteStmtCache relation.relationOid).all (fun stmt =>
      decide (stmt.text = deleteText relation))
  | .event _ => true

def Texts (cache : StatementCache) (text : Relation → String) (known : Oid → Option Relation) :
    Prop :=
  ∀ oid stmt, cache oid = some stmt → ∃ relation, known oid = some relation ∧
    stmt.text = text relation

structure InSync (s : Sink D) (known : Oid → Option Relation) : Prop where
  relations : s.relationCache = RelationCache.fromRels known
  upserts : Texts s.upsertStmtCache upsertText known
  deletes : Texts s.deleteStmtCache deleteText known

theorem inSync_new (client : D) (known : Oid → Option Relation) : InSync (new client known) known :=
  ⟨rfl, fun _ _ h => (by cases h), fun _ _ h => (by cases h)⟩

variable [PostgresClient D]

def step (call : Call) (s : Sink D) : Option (Sink D) :=
  match call with
  | .relation relation => some (onRelation relation s).1
  | .event event =>
    match onEvent event s with
    | (_, .error .panic) => none
    | (s, _) => some s

/-- Whatever event comes next, the statement executed for it is the one of
the latest relation. -/
def Current (s : Sink D) (known : Oid → Option Relation) : Prop :=
  ∀ event s' stmt params, prepareEvent event s = (s', .ok (stmt, params)) →
    ∃ relation, known event.rel = some relation ∧ stmt.text = statementText relation event.op

theorem texts_insert (cache : StatementCache) (text : Relation → String)
    (known : Oid → Option Relation) (h : Texts cache text known) (oid : Oid) (stmt : Statement)
    (relation : Relation) (hknown : known oid = some relation) (htext : stmt.text = text relation) :
    Texts (Function.update cache oid (some stmt)) text known := by
  intro o st ho
  by_cases heq : o = oid
  · subst heq
    rw [Function.update_self, Option.some.injEq] at ho
    exact ⟨relation, hknown, ho ▸ htext⟩
  · rw [Function.update_of_ne heq] at ho
    exact h o st ho

theorem cached_texts (cache : StatementCache) (text : Relation → String)
    (known : Oid → Option Relation) (h : Texts cache text known) (oid : Oid) (relation : Relation)
    (hknown : known oid = some relation) (client : D) :
    Texts (cached oid cache (prepareStatement (text relation) client)).1.2 text known ∧
      ∀ stmt, (cached oid cache (prepareStatement (text relation) client)).2 = .ok stmt →
        stmt.text = text relation := by
  cases hp : prepareStatement (text relation) client with
  | mk client' r =>
    cases r with
    | ok stmt =>
      have htext := prepareStatement_text _ _ _ _ hp
      refine ⟨texts_insert cache text known h oid stmt relation hknown htext, fun st hst => ?_⟩
      cases hst
      exact htext
    | error e => exact ⟨h, fun st hst => by cases hst⟩

def getStatement (text : Relation → String) (known : Oid → Option Relation) (client : D) (rel : Oid)
    (cache : StatementCache) : (D × StatementCache) × Outcome SinkError Statement :=
  match cache rel with
  | some stmt => ((client, cache), .ok stmt)
  | none =>
    match known rel with
    | none => ((client, cache), fail (.unknownRelation rel))
    | some relation => cached rel cache (prepareStatement (text relation) client)

theorem upsertGet_eq (known : Oid → Option Relation) (client : D) (rel : Oid)
    (cache : StatementCache) :
    UpsertStatementCache.get client rel (RelationCache.fromRels known) cache =
      getStatement upsertText known client rel cache := by
  unfold UpsertStatementCache.get getStatement
  cases cache rel with
  | some stmt => rfl
  | none => cases hk : known rel <;> simp only [RelationCache.fromRels, hk] <;> rfl

theorem deleteGet_eq (known : Oid → Option Relation) (client : D) (rel : Oid)
    (cache : StatementCache) :
    DeleteStatementCache.get client rel (RelationCache.fromRels known) cache =
      getStatement deleteText known client rel cache := by
  unfold DeleteStatementCache.get getStatement
  cases cache rel with
  | some stmt => rfl
  | none => cases hk : known rel <;> simp only [RelationCache.fromRels, hk] <;> rfl

theorem getStatement_texts (text : Relation → String) (known : Oid → Option Relation) (client : D)
    (rel : Oid) (cache : StatementCache) (h : Texts cache text known) :
    Texts (getStatement text known client rel cache).1.2 text known ∧
      ∀ stmt, (getStatement text known client rel cache).2 = .ok stmt →
        ∃ relation, known rel = some relation ∧ stmt.text = text relation := by
  unfold getStatement
  cases hcache : cache rel with
  | some stmt =>
    refine ⟨h, fun st hst => ?_⟩
    cases hst
    exact h rel stmt hcache
  | none =>
    cases hk : known rel with
    | none => exact ⟨h, fun st hst => by cases hst⟩
    | some relation =>
      obtain ⟨ht, hs⟩ := cached_texts cache text known h rel relation hk client
      exact ⟨ht, fun st hst => ⟨relation, rfl, hs st hst⟩⟩

theorem getStatement_prepared {V : Type} (view : D → V) {text : Relation → String} {rel : Relation}
    {oid : Oid} {known : Oid → Option Relation} (hknown : known oid = some rel)
    (hprepared : ∀ d, ∃ d', PostgresClient.prepare (text rel) d = (d', .ok ()) ∧ view d' = view d)
    (client : D) (cache : StatementCache) (hcache : Texts cache text known) :
    ∃ d cache', getStatement text known client oid cache = ((d, cache'), .ok ⟨text rel⟩) ∧
      view d = view client := by
  unfold getStatement
  cases hc : cache oid with
  | some stmt =>
    obtain ⟨r, hr, hst⟩ := hcache _ stmt hc
    rw [hknown, Option.some.injEq] at hr
    subst hr
    exact ⟨client, cache, by rw [← hst], rfl⟩
  | none =>
    obtain ⟨d, hp, hview⟩ := hprepared client
    simp only [hknown, prepareStatement, hp]
    exact ⟨d, _, rfl, hview⟩

theorem upsertStatement_sync (rel : Oid) (s : Sink D) (known : Oid → Option Relation)
    (h : InSync s known) :
    InSync (upsertStatement rel s).1 known ∧
      ∀ stmt, (upsertStatement rel s).2 = .ok stmt →
        ∃ relation, known rel = some relation ∧ stmt.text = upsertText relation := by
  have htexts := getStatement_texts upsertText known s.client rel s.upsertStmtCache h.upserts
  simp only [upsertStatement, h.relations, upsertGet_eq]
  exact ⟨⟨rfl, htexts.1, h.deletes⟩, htexts.2⟩

theorem deleteStatement_sync (rel : Oid) (s : Sink D) (known : Oid → Option Relation)
    (h : InSync s known) :
    InSync (deleteStatement rel s).1 known ∧
      ∀ stmt, (deleteStatement rel s).2 = .ok stmt →
        ∃ relation, known rel = some relation ∧ stmt.text = deleteText relation := by
  have htexts := getStatement_texts deleteText known s.client rel s.deleteStmtCache h.deletes
  simp only [deleteStatement, h.relations, deleteGet_eq]
  exact ⟨⟨rfl, h.upserts, htexts.1⟩, htexts.2⟩

theorem mergeToasted_text (relation : Relation) (op op' : Op) (h : mergeToasted op = .ok op') :
    statementText relation op' = statementText relation op := by
  cases op with
  | insert row => cases h; rfl
  | delete old => cases h; rfl
  | update old row =>
    simp only [mergeToasted] at h
    cases hm : mergeToastedFrom old 0 row with
    | error e => rw [hm] at h; cases h
    | ok row' =>
      rw [hm] at h
      cases h
      rfl

theorem prepareEvent_sync (event : ChangeEvent) (s : Sink D) (known : Oid → Option Relation)
    (h : InSync s known) :
    InSync (prepareEvent event s).1 known ∧
      ∀ stmt params, (prepareEvent event s).2 = .ok (stmt, params) →
        ∃ relation, known event.rel = some relation ∧
          stmt.text = statementText relation event.op := by
  have hup := upsertStatement_sync event.rel s known h
  have hdel := deleteStatement_sync event.rel s known h
  have htext : ∀ op relation, mergeToasted event.op = .ok op →
      statementText relation op = statementText relation event.op :=
    fun op relation hm => mergeToasted_text relation event.op op hm
  unfold prepareEvent
  split
  · exact ⟨h, fun _ _ hst => by cases hst⟩
  · next row hm =>
    refine ⟨hup.1, fun stmt params hst => ?_⟩
    obtain ⟨st, hget, hst⟩ := (bind_ok_iff _ _ _).mp hst
    cases hst
    obtain ⟨relation, hk, ht⟩ := hup.2 stmt hget
    exact ⟨relation, hk, ht.trans (htext _ relation hm)⟩
  · next old row hm =>
    refine ⟨hup.1, fun stmt params hst => ?_⟩
    obtain ⟨st, hget, hst⟩ := (bind_ok_iff _ _ _).mp hst
    cases hst
    obtain ⟨relation, hk, ht⟩ := hup.2 stmt hget
    exact ⟨relation, hk, ht.trans (htext _ relation hm)⟩
  · next old hm =>
    refine ⟨hdel.1, fun stmt params hst => ?_⟩
    obtain ⟨st, hget, hst⟩ := (bind_ok_iff _ _ _).mp hst
    obtain ⟨ps, _, hst⟩ := (bind_ok_iff _ _ _).mp hst
    cases hst
    obtain ⟨relation, hk, ht⟩ := hdel.2 stmt hget
    exact ⟨relation, hk, ht.trans (htext _ relation hm)⟩

theorem inSync_current (s : Sink D) (known : Oid → Option Relation) (h : InSync s known) :
    Current s known := by
  intro event s' stmt params hp
  exact (prepareEvent_sync event s known h).2 stmt params (congrArg Prod.snd hp)

theorem onEvent_sync (event : ChangeEvent) (s : Sink D) (known : Oid → Option Relation)
    (h : InSync s known) : InSync (onEvent event s).1 known := by
  have hp := (prepareEvent_sync event s known h).1
  unfold onEvent
  split
  · next s' stmt params heq =>
    rw [heq] at hp
    exact ⟨hp.relations, hp.upserts, hp.deletes⟩
  · next s' e heq =>
    rw [heq] at hp
    exact hp

theorem texts_update (cache : StatementCache) (text : Relation → String)
    (known : Oid → Option Relation) (relation : Relation) (h : Texts cache text known)
    (hfresh : ∀ stmt, cache relation.relationOid = some stmt → stmt.text = text relation) :
    Texts cache text (Function.update known relation.relationOid (some relation)) := by
  intro oid stmt hst
  by_cases heq : oid = relation.relationOid
  · subst heq
    exact ⟨relation, Function.update_self _ _ _, hfresh stmt hst⟩
  · rw [Function.update_of_ne heq]
    exact h oid stmt hst

theorem inSync_step (call : Call) (s s' : Sink D) (known : Oid → Option Relation)
    (h : InSync s known) (hfresh : fresh s call = true) (hs : step call s = some s') :
    InSync s' (latest known call) := by
  cases call with
  | relation relation =>
    simp only [fresh, Bool.and_eq_true, Option.all_eq_true, decide_eq_true_eq] at hfresh
    simp only [step, onRelation, Option.some.injEq] at hs
    subst hs
    refine ⟨?_, texts_update _ _ _ relation h.upserts hfresh.1,
      texts_update _ _ _ relation h.deletes hfresh.2⟩
    dsimp only [latest]
    rw [h.relations, RelationCache.update_fromRels]
  | event event =>
    have hevent := onEvent_sync event s known h
    simp only [step] at hs
    cases hr : onEvent event s with
    | mk r answer =>
      rw [hr] at hs hevent
      split at hs
      · cases hs
      · next heq =>
        cases heq
        cases hs
        exact hevent

theorem current_fresh (call : Call) (s s' : Sink D) (known : Oid → Option Relation)
    (hs : step call s = some s') (hc : Current s' (latest known call)) : fresh s call = true := by
  cases call with
  | event event => rfl
  | relation relation =>
    simp only [step, onRelation, Option.some.injEq] at hs
    subst hs
    simp only [fresh, Bool.and_eq_true, Option.all_eq_true, decide_eq_true_eq]
    constructor
    · intro stmt hst
      obtain ⟨r, hr, htext⟩ := hc ⟨.insert [], relation.relationOid⟩
        { s with relationCache := s.relationCache.update relation } stmt []
        (by simp only [prepareEvent, mergeToasted, upsertStatement, UpsertStatementCache.get, hst,
          ok_bind])
      rw [latest, Function.update_self, Option.some.injEq] at hr
      rw [hr]
      exact htext
    · intro stmt hst
      have hid : (s.relationCache.update relation).identities relation.relationOid =
          some (extractKeyIdentity relation) := Function.update_self _ _ _
      obtain ⟨params, hparams⟩ : ∃ params, deleteParams
          ((s.relationCache.update relation).identities relation.relationOid)
          relation.relationOid [] = .ok params := by
        rw [hid]
        cases extractKeyIdentity relation <;> exact ⟨_, rfl⟩
      obtain ⟨r, hr, htext⟩ := hc ⟨.delete [], relation.relationOid⟩
        { s with relationCache := s.relationCache.update relation } stmt params
        (by simp only [prepareEvent, mergeToasted, deleteStatement, DeleteStatementCache.get, hst,
          hparams, ok_bind])
      rw [latest, Function.update_self, Option.some.injEq] at hr
      rw [hr]
      exact htext

/-- Over every sequence of calls, from any loaded relations and with any
answers of the database: in every state the statement of every event is the
one of the latest relation exactly when no relation arrives that changes a
cached statement. -/
theorem current_iff_fresh (client : D) (relations : Oid → Option Relation) (calls : List Call) :
    (∀ pre post s, calls = pre ++ post → run step pre (new client relations) = some s →
        Current s (pre.foldl latest relations)) ↔
      Meets (pair step (fun _ => latest)) (fun q call => fresh q.1 call = true) calls
        (new client relations, relations) :=
  prefixes_iff_meets id latest (fun _ _ _ => rfl) InSync Current (fun _ _ => True)
    (fun s known h => inSync_current s known h)
    (fun call s s' known h _ hf hs => inSync_step call s s' known h hf hs)
    (fun call s s' known _ _ hs hc => current_fresh call s s' known hs hc)
    calls (new client relations) relations (inSync_new client relations)
    (meets_of_forall calls relations (fun (_ : Call) _ => trivial))

end Calls

structure Permissive where

instance : PostgresClient Permissive := ⟨fun _ d => (d, .ok ()), fun _ _ d => (d, .ok ())⟩

def narrow : Relation := ⟨1, "u", "p", [⟨true, "a", .int4⟩], .keys⟩

def wide : Relation := ⟨1, "u", "p", [⟨true, "a", .int4⟩, ⟨false, "b", .int4⟩], .keys⟩

theorem widened_relation_is_ignored :
    ∃ s, run step [.event ⟨.insert [.int4 1], 1⟩, .relation wide]
        (new Permissive.mk (fun oid => if oid = 1 then some narrow else none)) = some s ∧
      ∃ s' stmt params, prepareEvent ⟨.insert [.int4 2, .int4 3], 1⟩ s =
          (s', .ok (stmt, params)) ∧
        stmt.text = upsertText narrow ∧ stmt.text ≠ upsertText wide := by
  refine ⟨_, rfl, _, ⟨upsertText narrow⟩, [.int4 2, .int4 3], rfl, rfl, ?_⟩
  decide +kernel

end CDC.StatementCache
