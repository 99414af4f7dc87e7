import CdcConnector.SinkTable
import CdcConnector.StatementCache

/-!
# Source and sink

Over any database that accepts the two statements or refuses them, the sink does
to its table what the sink table does. Upserts and removals by key follow the
source as long as no update moves a row to another key, no unchanged value is
left out, the key columns come first where rows are deleted, and every time can
be represented.
-/

set_option autoImplicit false

namespace CDC.SinkReplication
open CDC.Fallible CDC.Event CDC.SinkModel CDC.SinkStatements CDC.PostgresSink CDC.PartialRun
open CDC.SinkDatabase CDC.SourceTable CDC.SinkTable CDC.StatementCache

section Sink
variable {D : Type} [PostgresClient D]

/-- A panic ends the process; an error is logged and the next event comes. -/
def applyEvent (event : ChangeEvent) (s : Option (Sink D)) : Option (Sink D) :=
  s.bind (fun sink =>
    match onEvent event sink with
    | (_, .error .panic) => none
    | (sink, _) => some sink)

def sinkStep (rel : Relation) (s : Option (Sink D)) (op : SourceOp) : Option (Sink D) :=
  applyEvent (toEvent rel op) s

variable (table : D → Finset TableRow)

def sinkTable (s : Option (Sink D)) : Option (Finset TableRow) :=
  s.map (fun sink => table sink.client)

/-- The relation is known to the sink, and the database accepts its upsert and
its delete, each of them unless it refuses the text for good. -/
structure Served (taken : Taken) (rel : Relation) (known : Oid → Option Relation) : Prop where
  is_known : known rel.relationOid = some rel
  by_keys : rel.replicaId = .keys
  names_nodup : (extractFieldsNames rel).Nodup
  upserts : Answers (extractFieldsNames rel) table (upsertText rel) (upsertCommand rel) taken.upserts
  deletes : Answers (extractFieldsNames rel) table (deleteText rel) (deleteCommand rel) taken.deletes

variable (D) in
/-- The sink is in step with the relations, and holds no statement whose text is
refused. -/
structure InStep (taken : Taken) (rel : Relation) (known : Oid → Option Relation) (k : Sink D) :
    Prop where
  sync : InSync k known
  upserts : taken.upserts = false → k.upsertStmtCache rel.relationOid = none
  deletes : taken.deletes = false → k.deleteStmtCache rel.relationOid = none

variable {table} {taken : Taken} {rel : Relation} {known : Oid → Option Relation}

def Answered (text : String) (takes : Bool) (r : Outcome SinkError Statement) : Prop :=
  if takes then r = .ok ⟨text⟩ else ∃ e, r = fail (.platform e)

theorem getStatement_answered {text : Relation → String} {command : Command} {takes : Bool}
    (hknown : known rel.relationOid = some rel)
    (h : Answers (extractFieldsNames rel) table (text rel) command takes) (client : D)
    (cache : StatementCache) (hcache : Texts cache text known)
    (hnone : takes = false → cache rel.relationOid = none) :
    ∃ d cache' r, getStatement text known client rel.relationOid cache = ((d, cache'), r) ∧
      table d = table client ∧ (takes = false → cache' rel.relationOid = none) ∧
        Answered (text rel) takes r := by
  cases takes with
  | true =>
    obtain ⟨d, cache', heq, htable⟩ :=
      getStatement_prepared table hknown h.prepared client cache hcache
    exact ⟨d, cache', _, heq, htable, fun hf => (by cases hf), rfl⟩
  | false =>
    have hempty := hnone rfl
    obtain ⟨d, e, hprepare, htable⟩ := h.refused client
    refine ⟨d, cache, fail (.platform e), ?_, htable, hnone, e, rfl⟩
    simp only [getStatement, hempty, hknown, prepareStatement, hprepare]
    rfl

theorem upsertStatement_served (h : Served table taken rel known) (k : Sink D)
    (hk : InStep D taken rel known k) :
    ∃ k' r, upsertStatement rel.relationOid k = (k', r) ∧ table k'.client = table k.client ∧
      InStep D taken rel known k' ∧ Answered (upsertText rel) taken.upserts r := by
  have hsync := (upsertStatement_sync rel.relationOid k known hk.sync).1
  obtain ⟨d, cache, r, heq, htable, hnone, hr⟩ := getStatement_answered h.is_known h.upserts k.client
    k.upsertStmtCache hk.sync.upserts hk.upserts
  simp only [upsertStatement, hk.sync.relations, upsertGet_eq, heq] at hsync ⊢
  exact ⟨_, r, rfl, htable, ⟨hsync, hnone, hk.deletes⟩, hr⟩

theorem deleteStatement_served (h : Served table taken rel known) (k : Sink D)
    (hk : InStep D taken rel known k) :
    ∃ k' r, deleteStatement rel.relationOid k = (k', r) ∧ table k'.client = table k.client ∧
      InStep D taken rel known k' ∧ Answered (deleteText rel) taken.deletes r := by
  have hsync := (deleteStatement_sync rel.relationOid k known hk.sync).1
  obtain ⟨d, cache, r, heq, htable, hnone, hr⟩ := getStatement_answered h.is_known h.deletes k.client
    k.deleteStmtCache hk.sync.deletes hk.deletes
  simp only [deleteStatement, hk.sync.relations, deleteGet_eq, heq] at hsync ⊢
  exact ⟨_, r, rfl, htable, ⟨hsync, hk.upserts, hnone⟩, hr⟩

theorem applyEvent_prepared {text : String} {command : Command}
    (h : Accepts (extractFieldsNames rel) table text command) (event : ChangeEvent) (k k' : Sink D)
    (params : List PgValue) (hp : prepareEvent event k = (k', .ok (⟨text⟩, params))) :
    sinkTable table (applyEvent event (some k)) =
      executed (extractFieldsNames rel) command params (table k'.client) := by
  simp only [applyEvent, Option.bind_some, onEvent, hp, executed]
  by_cases hlen : params.length = command.arity
  · rw [if_neg (not_not.mpr hlen)]
    have hlen : (params.map toSql).length = command.arity := by rw [List.length_map, hlen]
    cases hc : convert (params.map toSql) with
    | ok values =>
      obtain ⟨d, hex, htable⟩ := h.executed _ _ k'.client hlen hc
      rw [hex]
      exact congrArg some htable
    | error e =>
      obtain ⟨d, hex, htable⟩ := h.unconverted _ _ k'.client hlen hc
      rw [hex]
      cases e with
      | panic => rfl
      | error e => exact congrArg some htable
  · rw [if_pos hlen]
    obtain ⟨d, e, hex, htable⟩ := h.short (params.map toSql) k'.client
      (by rw [List.length_map]; exact hlen)
    rw [hex]
    exact congrArg some htable

theorem applyEvent_refused (event : ChangeEvent) (k k' : Sink D) (e : SinkError)
    (hp : prepareEvent event k = (k', fail e)) :
    sinkTable table (applyEvent event (some k)) = some (table k'.client) := by
  simp only [applyEvent, Option.bind_some, onEvent, hp]
  rfl

theorem applyEvent_answered {text : String} {command : Command} {takes : Bool}
    (h : Answers (extractFieldsNames rel) table text command takes) (event : ChangeEvent)
    (k k' : Sink D) (r : Outcome SinkError Statement) (params : List PgValue)
    (hr : Answered text takes r)
    (hp : prepareEvent event k = (k', r >>= fun stmt => .ok (stmt, params))) :
    sinkTable table (applyEvent event (some k)) =
      if takes then executed (extractFieldsNames rel) command params (table k'.client)
      else some (table k'.client) := by
  cases takes with
  | true =>
    obtain rfl := hr
    exact applyEvent_prepared h event k k' params hp
  | false =>
    obtain ⟨e, rfl⟩ := hr
    exact applyEvent_refused event k k' _ hp

/-- The sink does to its table what the sink table does, as far as the server
takes its texts. -/
theorem applyEvent_table (h : Served table taken rel known) (k : Sink D)
    (hk : InStep D taken rel known k) (op : Op) :
    sinkTable table (applyEvent ⟨op, rel.relationOid⟩ (some k)) =
      answeredStep rel taken op (table k.client) := by
  obtain ⟨ku, ru, hupsert, hutable, _, hru⟩ := upsertStatement_served h k hk
  obtain ⟨kd, rd, hdelete, hdtable, hdsync, hrd⟩ := deleteStatement_served h k hk
  cases op with
  | insert row =>
    rw [applyEvent_answered h.upserts _ k ku ru row hru
      (by simp only [prepareEvent, mergeToasted, hupsert]), hutable]
    rfl
  | update old row =>
    simp only [answeredStep, tableStep, mergeToasted]
    cases hm : mergeToastedFrom old 0 row with
    | error e =>
      have hmerge : mergeToasted (.update old row) = .error e := by
        rw [mergeToasted, hm]
        rfl
      simp only [applyEvent, Option.bind_some, onEvent, prepareEvent, hmerge]
      exact (ite_self _).symm
    | ok row' =>
      have hmerge : mergeToasted (.update old row) = .ok (.update old row') := by
        rw [mergeToasted, hm]
        rfl
      rw [applyEvent_answered h.upserts _ k ku ru row' hru
        (by simp only [prepareEvent, hmerge, hupsert]), hutable]
      rfl
  | delete old =>
    have hid : kd.relationCache.identities rel.relationOid =
        some (.keys (extractKeysPos rel.fields)) := by
      rw [hdsync.sync.relations]
      simp only [RelationCache.fromRels, h.is_known, Option.map_some, extractKeyIdentity, h.by_keys]
    rw [applyEvent_answered h.deletes _ k kd rd (keptValues rel old) hrd
      (by simp only [prepareEvent, mergeToasted, hdelete, hid, deleteParams, keptValues, ok_bind]),
      hdtable]
    rfl

def Inv (table : D → Finset TableRow) (taken : Taken) (rel : Relation)
    (known : Oid → Option Relation) (s : Option (Sink D)) (t : Finset TableRow) : Prop :=
  ∃ k, s = some k ∧ InStep D taken rel known k ∧ table k.client = t ∧ RelTable rel t

omit [PostgresClient D] in
theorem inStep_new (d : D) : InStep D taken rel known (new d known) :=
  ⟨inSync_new d known, fun _ => rfl, fun _ => rfl⟩

theorem prepareEvent_inStep (h : Served table taken rel known) (op : Op) (k : Sink D)
    (hk : InStep D taken rel known k) :
    InStep D taken rel known (prepareEvent ⟨op, rel.relationOid⟩ k).1 := by
  obtain ⟨ku, ru, hupsert, _, husync, _⟩ := upsertStatement_served h k hk
  obtain ⟨kd, rd, hdelete, _, hdsync, _⟩ := deleteStatement_served h k hk
  unfold prepareEvent
  split
  · exact hk
  · rw [hupsert]
    exact husync
  · rw [hupsert]
    exact husync
  · rw [hdelete]
    exact hdsync

theorem applyEvent_inStep (h : Served table taken rel known) (op : Op) (k k' : Sink D)
    (hk : InStep D taken rel known k)
    (hnext : applyEvent ⟨op, rel.relationOid⟩ (some k) = some k') : InStep D taken rel known k' := by
  have hprepared := prepareEvent_inStep h op k hk
  have hevent : InStep D taken rel known (onEvent ⟨op, rel.relationOid⟩ k).1 := by
    unfold onEvent
    split
    · next heq =>
      rw [heq] at hprepared
      exact ⟨⟨hprepared.sync.relations, hprepared.sync.upserts, hprepared.sync.deletes⟩,
        hprepared.upserts, hprepared.deletes⟩
    · next heq =>
      rw [heq] at hprepared
      exact hprepared
  simp only [applyEvent, Option.bind_some] at hnext
  split at hnext
  · cases hnext
  · next heq =>
    rw [heq] at hevent
    cases hnext
    exact hevent

theorem inv_step (h : Served table taken rel known) (op : SourceOp) (s : Option (Sink D))
    (t : Finset TableRow) (hinv : Inv table taken rel known s t) (hvalid : Valid rel t op)
    (hr : followed rel taken op = true) :
    Inv table taken rel known (sinkStep rel s op) (sourceStep t op) := by
  obtain ⟨k, rfl, hk, rfl, ht⟩ := hinv
  have hstep := applyEvent_table h k hk (toEvent rel op).op
  rw [(answeredStep_iff rel h.names_nodup _ ht taken op hvalid).mpr hr] at hstep
  obtain ⟨k', heq, htable⟩ := Option.map_eq_some_iff.mp hstep
  have hrel : sinkStep rel (some k) op =
      applyEvent ⟨(toEvent rel op).op, rel.relationOid⟩ (some k) := by cases op <;> rfl
  rw [hrel]
  exact ⟨k', heq, applyEvent_inStep h _ k k' hk heq, htable, sourceStep_ok rel _ ht op hvalid⟩

theorem exact_step (h : Served table taken rel known) (op : SourceOp) (s : Option (Sink D))
    (t : Finset TableRow) (hinv : Inv table taken rel known s t) (hvalid : Valid rel t op)
    (hr : sinkTable table (sinkStep rel s op) = some (sourceStep t op)) :
    followed rel taken op = true := by
  obtain ⟨k, rfl, hk, rfl, ht⟩ := hinv
  have hstep := applyEvent_table h k hk (toEvent rel op).op
  have hrel : (toEvent rel op).rel = rel.relationOid := by cases op <;> rfl
  rw [← hrel] at hstep
  exact (answeredStep_iff rel h.names_nodup _ ht taken op hvalid).mp (hstep.symm.trans hr)

/-- Over every sequence of operations the source allows, on every table with a
key and any database that accepts its statements or refuses them: after every
prefix the sink holds the rows of the source exactly when the sink can follow
every operation. -/
theorem replicates_iff_replicable (h : Served table taken rel known) (d : D)
    (ht : RelTable rel (table d)) (ops : List SourceOp)
    (hvalid : Meets (fun op t => some (sourceStep t op)) (Valid rel) ops (table d)) :
    (∀ pre post, ops = pre ++ post →
        sinkTable table (pre.foldl (sinkStep rel) (some (new d known))) =
          some (pre.foldl sourceStep (table d))) ↔
      ∀ op ∈ ops, followed rel taken op = true :=
  prefixes_iff_forall (sinkStep rel) sourceStep (Inv table taken rel known)
    (fun s t => sinkTable table s = some t) (Valid rel)
    (fun _ _ ⟨_, hs, _, htable, _⟩ => by rw [hs, ← htable]; rfl)
    (fun op s t hi hv hr => inv_step h op s t hi hv hr)
    (fun op s t hi hv hr => exact_step h op s t hi hv hr)
    ops (some (new d known)) (table d) ⟨new d known, rfl, inStep_new d, rfl, ht⟩ hvalid

end Sink

def usersKnown (oid : Oid) : Option Relation := if oid = 1 then some users else none

def usersMeaning (text : String) : Option Command :=
  if text = upsertText users then some (upsertCommand users)
  else if text = deleteText users then some (deleteCommand users)
  else none

abbrev UsersDatabase := Database ["id", "name"] usersMeaning

theorem users_served : Served (Database.table : UsersDatabase → _) ⟨true, true⟩ users usersKnown := by
  have hne : deleteText users ≠ upsertText users := by decide +kernel
  refine ⟨rfl, rfl, by decide, Database.accepts _ _ ?_, Database.accepts _ _ ?_⟩
  · rw [usersMeaning, if_pos rfl]
  · rw [usersMeaning, if_neg hne, if_pos rfl]

def oneUser : UsersDatabase := ⟨{[.int4 1, .text "a"]}⟩

theorem oneUser_ok : RelTable users oneUser.table :=
  tableOk_singleton _ _ _ ⟨rfl, by decide⟩

def move : SourceOp := .update [.int4 1, .text "a"] [.int4 2, .text "a"] [false, false]

theorem moved_row_is_doubled :
    Served (Database.table : UsersDatabase → _) ⟨true, true⟩ users usersKnown ∧
      RelTable users oneUser.table ∧
      Valid users oneUser.table move ∧
      (onEvent (toEvent users move) (new oneUser usersKnown)).2 = .ok () ∧
      sinkTable Database.table (sinkStep users (some (new oneUser usersKnown)) move) =
        some {[.int4 1, .text "a"], [.int4 2, .text "a"]} ∧
      sourceStep oneUser.table move = {[.int4 2, .text "a"]} ∧
      sinkTable Database.table (sinkStep users (some (new oneUser usersKnown)) move) ≠
        some (sourceStep oneUser.table move) := by
  refine ⟨users_served, oneUser_ok, ?_, ?_, ?_, ?_, ?_⟩
  · decide +kernel
  · decide +kernel
  · decide +kernel
  · decide +kernel
  · decide +kernel

def keyedOps : List SourceOp :=
  [.insert [.int4 2, .text "b"],
    .update [.int4 1, .text "a"] [.int4 1, .text "c"] [false, false],
    .delete [.int4 2, .text "b"]]

theorem keyed_ops_replicate :
    Meets (fun op t => some (sourceStep t op)) (Valid users) keyedOps oneUser.table ∧
      ∀ pre post, keyedOps = pre ++ post →
        sinkTable Database.table (pre.foldl (sinkStep users) (some (new oneUser usersKnown))) =
          some (pre.foldl sourceStep oneUser.table) := by
  have hvalid : Meets (fun op t => some (sourceStep t op)) (Valid users) keyedOps oneUser.table := by
    decide +kernel
  exact ⟨hvalid, (replicates_iff_replicable users_served oneUser oneUser_ok keyedOps hvalid).mpr
    (by decide)⟩

end CDC.SinkReplication
