import CdcConnector.EndToEnd
import CdcConnector.RelationCaches
import CdcConnector.SchemaFirst
import CdcConnector.TableTopic
import CdcConnector.TypedLog

/-!
# The relations topic

A connector that starts reads the relations topic for a while and fills its
relation cache with what it finds; later it reads the same topic again beside
the events. The topic is compacted under the relation's oid, so a whole read
finds the relation published last for each oid.
-/

set_option autoImplicit false

namespace CDC.RelationTopic
open CDC.Fallible CDC.Event CDC.SerdeAvro CDC.EventAvro CDC.RelationAvro CDC.ProducerModel
open CDC.PartialRun CDC.WalReader CDC.SourceStream CDC.KafkaLoop CDC.SchemaFirst
open CDC.TransactionLog CDC.Compaction CDC.ProducerLog CDC.LsnTopic CDC.ProducerRestarts CDC.TypedLog
open CDC.SinkModel CDC.SinkStatements CDC.PostgresSink CDC.RelationCaches CDC.StatementCache
open CDC.TableTopic
open CDC.EndToEnd (ids)
open CDC.TopicOrder (call calls consume run_consume NoneDropped)

section Load
variable {SerError : Type} (lib : Library SerError)

def loadRelationsFrom (relations : Oid → Option Relation) :
    List Poll → Except Unit (Oid → Option Relation)
  | [] => .ok relations
  | .message (some payload)::polls =>
    match relationFromAvro lib payload with
    | .ok rel => loadRelationsFrom (Function.update relations rel.relationOid (some rel)) polls
    | .error _ => loadRelationsFrom relations polls
  | .message none::polls => loadRelationsFrom relations polls
  | .kafkaError::_ => .error ()
  | .closed::_ => .ok relations
  | .timeout::_ => .ok relations

def loadRelations (polls : List Poll) : Except Unit (Oid → Option Relation) :=
  loadRelationsFrom lib (fun _ => none) polls

def byOid (relation : Relation) : Oid × Relation := (relation.relationOid, relation)

/-- The relation committed last for each oid. -/
def published (txs : List (List Record)) (oid : Oid) : Option Relation :=
  Compaction.latest oid ((relationsOf txs.flatten).map byOid)

def Brings (polls : List Poll) (relations : List Relation) : Prop :=
  ∃ rest, polls = relations.map (fun rel => Poll.message (payloadBytes lib (.relation rel))) ++ rest ∧
    (rest = [] ∨ ∃ rest', rest = .timeout :: rest' ∨ rest = .closed :: rest')

/-- What a read of all partitions brings, of a topic compacted in each. -/
def Whole {ι : Type} [DecidableEq ι] (partitionOf : Bytes → ι) (k : KafkaTopics)
    (txs : List (List Record)) (relations : List Relation) : Prop :=
  CompactsEach partitionOf ((topicRecords k.relTopic txs).map keyed)
    (relations.map (fun rel => keyed (k.relationRecord rel)))

theorem oid_key_injective : Function.Injective (fun oid : Oid => BigEndian.toBytes 4 oid.toNat) := by
  intro a b h
  have hread := congrArg BigEndian.ofBytes h
  dsimp only at hread
  rw [BigEndian.ofBytes_toBytes 4 _ a.toNat_lt, BigEndian.ofBytes_toBytes 4 _ b.toNat_lt] at hread
  exact UInt32.toNat_inj.mp hread

theorem latest_keyed (k : KafkaTopics) (relations : List Relation) (oid : Oid) :
    Compaction.latest (BigEndian.toBytes 4 oid.toNat)
        (relations.map (fun rel => keyed (k.relationRecord rel))) =
      (Compaction.latest oid (relations.map byOid)).map Payload.relation := by
  rw [← latest_map _ oid_key_injective, List.map_map]
  rfl

section Read
variable (topic key : String) (txs : List (List Record))
  (hwrote : ∀ r ∈ txs.flatten, Written (KafkaTopics.new topic key) r) {ι : Type} [DecidableEq ι]
  (partitionOf : Bytes → ι) (relations : List Relation)
  (h : Whole partitionOf (KafkaTopics.new topic key) txs relations)
include hwrote h

theorem whole_published (oid : Oid) :
    Compaction.latest oid (relations.map byOid) = published txs oid := by
  have hfull : (topicRecords (KafkaTopics.new topic key).relTopic txs).map keyed =
      (relationsOf txs.flatten).map
        (fun rel => keyed ((KafkaTopics.new topic key).relationRecord rel)) := by
    have hrecords := relation_topic_records topic key _ hwrote
    rw [topicRecords, show (KafkaTopics.new topic key).relTopic = topic ++ ".relations" from rfl,
      hrecords, List.map_map]
    rfl
  rw [Whole, hfull] at h
  have hlatest := compactsEach_latest h (BigEndian.toBytes 4 oid.toNat)
  rw [latest_keyed, latest_keyed] at hlatest
  exact Option.map_injective (fun _ _ he => Payload.relation.inj he) hlatest

end Read

theorem published_some (txs : List (List Record)) (rel : Relation)
    (h : rel ∈ relationsOf txs.flatten) : ∃ rel', published txs rel.relationOid = some rel' := by
  cases hpub : published txs rel.relationOid with
  | some rel' => exact ⟨rel', rfl⟩
  | none => exact absurd rfl ((latest_none _ _).mp hpub _ (List.mem_map_of_mem h))

variable (hwrites : WritesAvro lib) (hreads : ReadsAvro lib)
include hwrites hreads

theorem relation_payload (relation : Relation) :
    ∃ bytes, payloadBytes lib (.relation relation) = some bytes ∧
      relationFromAvro lib bytes = .ok relation := by
  obtain ⟨d, hd, hrelation⟩ := relation_agrees relation
  obtain ⟨bytes, hwritten, hread⟩ := written_read lib hwrites hreads _ _ d hd
  have hboth : (lib.fromDatum relationSchema bytes >>= deserializeRelation) = .ok relation := by
    rw [hread]
    exact hrelation
  refine ⟨bytes, ?_, by rw [relationFromAvro, hboth]⟩
  rw [payloadBytes, relationIntoAvro, hwritten]
  rfl

theorem loadRelationsFrom_brought (relations : List Relation) (known : Oid → Option Relation)
    (rest : List Poll) : loadRelationsFrom lib known
        (relations.map (fun rel => Poll.message (payloadBytes lib (.relation rel))) ++ rest) =
      loadRelationsFrom lib (collect (relations.map byOid) known) rest := by
  induction relations generalizing known with
  | nil => rfl
  | cons relation relations ih =>
    obtain ⟨bytes, hbytes, hread⟩ := relation_payload lib hwrites hreads relation
    rw [List.map_cons, List.cons_append, hbytes, loadRelationsFrom, hread]
    exact ih _

theorem loads_brought (polls : List Poll) (relations : List Relation)
    (h : Brings lib polls relations) :
    loadRelations lib polls = .ok (collect (relations.map byOid) (fun _ => none)) := by
  obtain ⟨rest, rfl, hrest⟩ := h
  rw [loadRelations, loadRelationsFrom_brought lib hwrites hreads]
  rcases hrest with rfl | ⟨rest', rfl | rfl⟩ <;> rfl

end Load

section Sink
variable {D : Type} [PostgresClient D]

theorem prepared_known (text : String) (client : D) (oid : Oid) :
    (prepareStatement text client).2 ≠ fail (.unknownRelation oid) := by
  unfold prepareStatement
  split
  · exact fun he => by cases he
  · exact fun he => by cases he

omit [PostgresClient D] in
theorem cached_answer (rel : Oid) (cache : StatementCache) (r : D × Outcome SinkError Statement) :
    (cached rel cache r).2 = r.2 := by
  obtain ⟨client, answer⟩ := r
  cases answer with
  | ok stmt => rfl
  | error e => rfl

theorem platform_known (r : Outcome String Unit) (oid : Oid) :
    platform r ≠ fail (.unknownRelation oid) := by
  cases r with
  | ok u => exact fun he => by cases he
  | error x => cases x <;> exact fun he => by cases he

section Known
variable (s : Sink D) (known : Oid → Option Relation)
  (hcache : s.relationCache = RelationCache.fromRels known) (oid : Oid) (rel : Relation)
  (hrel : known oid = some rel) (o : Oid)
include hcache hrel

theorem upsert_known : (upsertStatement oid s).2 ≠ fail (.unknownRelation o) := by
  show (UpsertStatementCache.get s.client oid s.relationCache s.upsertStmtCache).2 ≠ _
  rw [hcache]
  unfold UpsertStatementCache.get
  split
  · exact fun he => by cases he
  · simp only [RelationCache.fromRels, hrel, Option.map_some]
    rw [cached_answer]
    exact prepared_known _ s.client o

theorem delete_known : (deleteStatement oid s).2 ≠ fail (.unknownRelation o) := by
  show (DeleteStatementCache.get s.client oid s.relationCache s.deleteStmtCache).2 ≠ _
  rw [hcache]
  unfold DeleteStatementCache.get
  split
  · exact fun he => by cases he
  · simp only [RelationCache.fromRels, hrel, Option.map_some]
    rw [cached_answer]
    exact prepared_known _ s.client o

end Known

theorem prepareEvent_cache (event : ChangeEvent) (s : Sink D) :
    (prepareEvent event s).1.relationCache = s.relationCache := by
  unfold prepareEvent
  split <;> rfl

theorem onEvent_cache (event : ChangeEvent) (s : Sink D) :
    (onEvent event s).1.relationCache = s.relationCache := by
  rw [← prepareEvent_cache event s]
  unfold onEvent
  split
  · next h => rw [h]
  · next h => rw [h]

theorem event_known (event : ChangeEvent) (s : Sink D) (known : Oid → Option Relation)
    (hcache : s.relationCache = RelationCache.fromRels known) (rel : Relation)
    (hrel : known event.rel = some rel) (oid : Oid) :
    (onEvent event s).2 ≠ fail (.unknownRelation oid) := by
  have hparts : (prepareEvent event s).2 ≠ fail (.unknownRelation oid) := by
    have hupsert := upsert_known s known hcache event.rel rel hrel oid
    have hdelete := delete_known s known hcache event.rel rel hrel oid
    unfold prepareEvent
    split
    · exact fun he => by cases he
    · intro he
      rcases (bind_error_iff _ _ _).mp he with he | ⟨stmt, _, he⟩
      · exact hupsert he
      · cases he
    · intro he
      rcases (bind_error_iff _ _ _).mp he with he | ⟨stmt, _, he⟩
      · exact hupsert he
      · cases he
    · intro he
      rcases (bind_error_iff _ _ _).mp he with he | ⟨stmt, _, he⟩
      · exact hdelete he
      · have hid : (deleteStatement event.rel s).1.relationCache.identities event.rel =
            some (extractKeyIdentity rel) := by
          show s.relationCache.identities event.rel = _
          rw [hcache]
          simp only [RelationCache.fromRels, hrel, Option.map_some]
        rw [hid] at he
        cases hkind : extractKeyIdentity rel with
        | full =>
          rw [hkind] at he
          cases he
        | keys ids =>
          rw [hkind] at he
          cases he
  unfold onEvent
  split
  · next s' stmt params h =>
    exact platform_known (PostgresClient.execute stmt (params.map toSql) s'.client).2 oid
  · next s' e h =>
    rw [h] at hparts
    exact fun he => hparts (congrArg Except.error (Except.error.inj he))

def relationOf : Call → Option Relation
  | .relation relation => some relation
  | .event _ => none

/-- The cache follows the relations read, whatever the events between them do. -/
theorem run_cache (calls : List Call) (s m : Sink D) (known : Oid → Option Relation)
    (hcache : s.relationCache = RelationCache.fromRels known)
    (hrun : run StatementCache.step calls s = some m) :
    m.relationCache =
      RelationCache.fromRels (collect ((calls.filterMap relationOf).map byOid) known) := by
  induction calls generalizing s known with
  | nil =>
    cases hrun
    exact hcache
  | cons c calls ih =>
    rw [run, Option.bind_eq_some_iff] at hrun
    obtain ⟨s', hs', hrest⟩ := hrun
    cases c with
    | relation relation =>
      cases hs'
      refine ih _ (Function.update known relation.relationOid (some relation)) ?_ hrest
      show s.relationCache.update relation = _
      rw [hcache, RelationCache.update_fromRels]
    | event event =>
      refine ih s' known ?_ hrest
      have hkeeps := onEvent_cache event s
      unfold StatementCache.step at hs'
      dsimp only at hs'
      split at hs'
      · cases hs'
      · next s'' r h =>
        cases hs'
        rw [h] at hkeeps
        exact hkeeps.trans hcache

end Sink

section Wire
variable {SerError : Type} (lib : Library SerError) (topic key : String)

def handed (r : Record) : TopicOrder.Record := ⟨r.topic, payloadBytes lib r.payload⟩

def callOf (r : Record) : Option Call :=
  match r.payload with
  | .event _ event => some (.event event)
  | .relation relation => some (.relation relation)
  | .lsn _ => none

theorem stripPrefix_suffix (suffix : String) :
    KafkaConsumer.stripPrefix (topic ++ suffix) topic = some suffix.toList := by
  rw [KafkaConsumer.stripPrefix, String.toList_append, if_pos (by simp), List.drop_left]

theorem call_handed (hwrites : WritesAvro lib) (hreads : ReadsAvro lib) (r : Record)
    (h : Written (KafkaTopics.new topic key) r) :
    call (clientOf lib topic) (handed lib r) = callOf r := by
  cases h with
  | event relation event => exact record_call lib topic hwrites hreads relation relation event
  | relation relation =>
    obtain ⟨bytes, hbytes, hread⟩ := relation_payload lib hwrites hreads relation
    have hstrip : KafkaConsumer.stripPrefix (topic ++ ".relations") (clientOf lib topic).topic =
        some ".relations".toList := stripPrefix_suffix topic ".relations"
    show call (clientOf lib topic) ⟨topic ++ ".relations", payloadBytes lib (.relation relation)⟩ = _
    rw [call, hbytes]
    dsimp only
    rw [hstrip]
    dsimp only
    rw [if_neg (by decide), if_pos rfl]
    show ((relationFromAvro lib bytes).toOption).map Call.relation = some (.relation relation)
    rw [hread]
    rfl
  | lsn lsn =>
    have hstrip : KafkaConsumer.stripPrefix (topic ++ ".lsn") (clientOf lib topic).topic =
        some ".lsn".toList := stripPrefix_suffix topic ".lsn"
    show call (clientOf lib topic) ⟨topic ++ ".lsn", payloadBytes lib (.lsn lsn)⟩ = none
    rw [call, payloadBytes]
    dsimp only
    rw [hstrip]
    dsimp only
    rw [if_neg (by decide), if_neg (by decide)]

theorem calls_handed (hwrites : WritesAvro lib) (hreads : ReadsAvro lib) (rs : List Record)
    (h : ∀ r ∈ rs, Written (KafkaTopics.new topic key) r) :
    calls (clientOf lib topic) (rs.map (handed lib)) = rs.filterMap callOf := by
  rw [calls, List.filterMap_map]
  apply List.filterMap_congr
  exact fun r hr => call_handed lib topic key hwrites hreads r (h r hr)

theorem handed_relations (rs : List Record) :
    (rs.filterMap callOf).filterMap relationOf = relationsOf rs := by
  rw [List.filterMap_filterMap, relationsOf]
  apply List.filterMap_congr
  intro r _
  unfold callOf Record.relation?
  cases r.payload <;> rfl

end Wire

/-- The relations come first in the log, and so they do once the open transaction
is committed. -/
structure Led (l : Log Record) : Prop where
  first : RelationsFirst l.committed
  ready : ∀ buf, l.pending = some buf →
    ∀ row ∈ rowsOf buf, row.1 ∈ relationsOf (l.committed.flatten ++ buf)

/-- A row only goes into the log with its relation before it. -/
theorem moves_led (l l' : Log Record) (h : Led l)
    (hmoves : Moves (fun r => ∀ row ∈ r.row?,
      row.1 ∈ relationsOf (l.committed.flatten ++ l.pending.getD [])) l l') : Led l' := by
  have hgrown : ∀ (c : List (List Record)) (buf : List Record) (r : Record),
      (∀ row ∈ rowsOf buf, row.1 ∈ relationsOf (c.flatten ++ buf)) →
      (∀ row ∈ r.row?, row.1 ∈ relationsOf (c.flatten ++ buf)) →
        ∀ row ∈ rowsOf (buf ++ [r]), row.1 ∈ relationsOf (c.flatten ++ (buf ++ [r])) := by
    intro c buf r hbuf hr row hrow
    rw [rowsOf_append, List.mem_append] at hrow
    rw [← List.append_assoc, relationsOf_append]
    apply List.mem_append_left
    rcases hrow with hrow | hrow
    · exact hbuf row hrow
    · obtain ⟨x, hx, hrow'⟩ := List.mem_filterMap.mp hrow
      rw [List.mem_singleton.mp hx] at hrow'
      exact hr row hrow'
  cases hmoves with
  | stays => exact h
  | begins pending c => exact ⟨h.first, fun buf hbuf row hrow => by cases hbuf; cases hrow⟩
  | drops pending c => exact ⟨h.first, fun _ hbuf => by cases hbuf⟩
  | adds buf c r hr =>
    refine ⟨h.first, ?_⟩
    intro buf' hbuf'
    cases hbuf'
    exact hgrown c buf r (h.ready buf rfl) hr
  | commits buf c r hr =>
    refine ⟨?_, fun _ hbuf => by cases hbuf⟩
    exact (relationsFirst_append _ _).mpr ⟨h.first, hgrown c buf r (h.ready buf rfl) hr⟩

theorem led_step (i : Step) (s s' : KafkaReader) (h : Led s.producer.inner)
    (hpublished : SchemaFirst.announced s i = true) (hs : step i s = some s') :
    Led s'.producer.inner := by
  apply moves_led _ _ h
  apply step_moves _ i s s' hs
  · exact fun _ _ _ hrow => by cases hrow
  · intro event rd ha hflag hsend row hrow
    cases hrow
    unfold SchemaFirst.announced at hpublished
    rw [ha, hflag, hsend] at hpublished
    exact of_decide_eq_true hpublished
  · exact fun _ _ _ _ hrow => by cases hrow

section Deployments
variable (k : KafkaTopics)

def Announcing (d : Deployment) : Happening → Prop
  | .replication i => ∀ r ∈ d.process, SchemaFirst.announced r.reader i = true
  | _ => True

instance (d : Deployment) (e : Happening) : Decidable (Announcing d e) :=
  match e with
  | .start _ => isTrue trivial
  | .replication i => inferInstanceAs (Decidable
      (∀ r ∈ d.process, SchemaFirst.announced r.reader i = true))
  | .confirm _ => isTrue trivial
  | .closed _ => isTrue trivial
  | .crash => isTrue trivial

structure Lead (d : Deployment) : Prop where
  past : RelationsFirst d.past
  process : ∀ r, d.process = some r → Led r.reader.producer.inner

theorem lead_committed (d : Deployment) (h : Lead d) : RelationsFirst d.committed := by
  unfold Deployment.committed
  cases hprocess : d.process with
  | none => exact h.past
  | some r => exact (h.process r hprocess).first

theorem lead_ended (d : Deployment) (h : Lead d) : Lead d.ended :=
  ⟨lead_committed d h, fun _ hr => by cases hr⟩

theorem lead_happen (e : Happening) (d : Deployment) (h : Lead d) (hannouncing : Announcing d e) :
    Lead (happen k e d) := by
  cases e with
  | start polls =>
    cases hlsn : readLsn polls with
    | none =>
      simp only [happen, hlsn]
      exact lead_ended d h
    | some result =>
      cases result with
      | error e =>
        simp only [happen, hlsn]
        exact lead_ended d h
      | ok lsn =>
        simp only [happen, hlsn]
        refine ⟨lead_committed d h, ?_⟩
        intro r hr
        cases hr
        exact ⟨lead_committed d h, fun _ hbuf => by cases hbuf⟩
  | replication i =>
    cases hprocess : d.process with
    | none =>
      simp only [happen, hprocess]
      exact h
    | some r =>
      have hpublished := hannouncing r hprocess
      cases hs : step i r.reader with
      | none =>
        simp only [happen, hprocess, hs]
        exact lead_ended d h
      | some reader =>
        simp only [happen, hprocess, hs]
        refine ⟨h.past, ?_⟩
        intro r' hr'
        cases hr'
        exact led_step i r.reader reader (h.process r hprocess) hpublished hs
  | confirm lsn => exact ⟨h.past, h.process⟩
  | closed o =>
    cases hprocess : d.process with
    | none =>
      simp only [happen, hprocess]
      exact h
    | some r =>
      simp only [happen, hprocess]
      refine ⟨?_, fun _ hr => by cases hr⟩
      rw [(close_committed o r.reader).1]
      exact (h.process r hprocess).first
  | crash => exact lead_ended d h

theorem lead_run (happenings : List Happening) (d : Deployment) (h : Lead d)
    (hannouncing : Meets (deploy k) Announcing happenings d) : Lead (deployed k happenings d) := by
  induction happenings generalizing d with
  | nil => exact h
  | cons e happenings ih =>
    obtain ⟨he, hrest⟩ := hannouncing _ rfl
    exact ih _ (lead_happen k e d h he) hrest

theorem first_relation (txs : List (List Record)) (h : RelationsFirst txs) (row : Row)
    (hrow : row ∈ rowsOf txs.flatten) : row.1 ∈ relationsOf txs.flatten := by
  obtain ⟨r, hr, hr'⟩ := List.mem_filterMap.mp hrow
  obtain ⟨tx, htx, hin⟩ := List.mem_flatten.mp hr
  obtain ⟨pre, post, rfl⟩ := List.append_of_mem htx
  have hmem := h pre tx post rfl row (List.mem_filterMap.mpr ⟨r, hin, hr'⟩)
  rw [List.flatten_append, List.flatten_cons, ← List.append_assoc, relationsOf_append]
  exact List.mem_append_left _ hmem

theorem row_published (happenings : List Happening)
    (hannouncing : Meets (deploy k) Announcing happenings fresh) (row : Row)
    (hrow : row ∈ rowsOf (deployed k happenings fresh).committed.flatten) :
    ∃ rel, published (deployed k happenings fresh).committed row.2.rel = some rel := by
  have hlead := lead_run k happenings ProducerRestarts.fresh
    ⟨fun pre tx post he => by simp [ProducerRestarts.fresh] at he, fun _ hr => by cases hr⟩
    hannouncing
  obtain ⟨r, hr, hrow'⟩ := List.mem_filterMap.mp hrow
  rw [((typed_deployed k happenings r hr).typed row hrow').oid]
  exact published_some _ row.1 (first_relation _ (lead_committed _ hlead) row hrow)

end Deployments

section Consumer
variable {SerError : Type} (lib : Library SerError) (topic key : String) {ι : Type} [DecidableEq ι]
  (partitionOf : Bytes → ι)

/-- A load that was cut short knows only published relations; a whole one knows
the last of every oid, and so does a connector that has then read the topic. -/
theorem reread_catches_up (hwrites : WritesAvro lib) (hreads : ReadsAvro lib)
    (happenings : List Happening) (txs : List (List Record))
    (htxs : txs = (deployed (KafkaTopics.new topic key) happenings fresh).committed)
    (polls : List Poll) (early : List Relation) (hearly : early ⊆ relationsOf txs.flatten)
    (hbrings : Brings lib polls early) :
    ∃ known, loadRelations lib polls = .ok known ∧
      (∀ oid rel, known oid = some rel → rel ∈ relationsOf txs.flatten ∧ rel.relationOid = oid) ∧
      (Whole partitionOf (KafkaTopics.new topic key) txs early → known = published txs) ∧
      ∀ (D : Type) [PostgresClient D] (d : D) (rs : List Record), rs ⊆ txs.flatten →
        Whole partitionOf (KafkaTopics.new topic key) txs (relationsOf rs) →
          ∀ m, run (consume (clientOf lib topic)) (rs.map (handed lib)) (new d known) = some m →
            m.relationCache = RelationCache.fromRels (published txs) := by
  have hwrote : ∀ r ∈ txs.flatten, Written (KafkaTopics.new topic key) r := by
    rw [htxs]
    exact fun r hr => (typed_deployed _ happenings r hr).written
  have hknown : ∀ oid rel, collect (early.map byOid) (fun _ => none) oid = some rel →
      rel ∈ relationsOf txs.flatten ∧ rel.relationOid = oid := by
    intro oid rel hrel
    obtain ⟨relation, hmem, heq⟩ := List.mem_map.mp (collect_subset _ oid rel hrel)
    cases heq
    exact ⟨hearly hmem, rfl⟩
  refine ⟨_, loads_brought lib hwrites hreads polls early hbrings, hknown, ?_, ?_⟩
  · intro hwhole
    funext oid
    rw [collect_latest, Option.or_none, whole_published topic key txs hwrote partitionOf early hwhole]
  · intro D _ d rs hrs hwhole m hrun
    rw [run_consume,
      calls_handed lib topic key hwrites hreads rs (fun r hr => hwrote r (hrs hr))] at hrun
    rw [run_cache _ _ m _ rfl hrun, handed_relations]
    congr 1
    funext oid
    rw [collect_latest, whole_published topic key txs hwrote partitionOf _ hwhole]
    cases hpub : published txs oid with
    | some rel => rfl
    | none =>
      cases hold : collect (early.map byOid) (fun _ => none) oid with
      | none => rfl
      | some rel =>
        obtain ⟨hmem, rfl⟩ := hknown oid rel hold
        obtain ⟨rel', hrel'⟩ := published_some txs rel hmem
        rw [hpub] at hrel'
        cases hrel'

/-- After a whole load no event of the log is refused for want of its relation,
in whatever order and how often its records are read. -/
theorem loaded_sink_drops_none (hwrites : WritesAvro lib) (hreads : ReadsAvro lib)
    (happenings : List Happening)
    (hannouncing : Meets (deploy (KafkaTopics.new topic key)) Announcing happenings fresh)
    (txs : List (List Record))
    (htxs : txs = (deployed (KafkaTopics.new topic key) happenings fresh).committed)
    (polls : List Poll) (relations : List Relation) (hbrings : Brings lib polls relations)
    (hwhole : Whole partitionOf (KafkaTopics.new topic key) txs relations) :
    ∃ known, loadRelations lib polls = .ok known ∧
      ∀ (D : Type) [PostgresClient D] (d : D) (rs : List Record), rs ⊆ txs.flatten →
        NoneDropped (clientOf lib topic) (rs.map (handed lib)) (new d known) := by
  have hwrote : ∀ r ∈ txs.flatten, Written (KafkaTopics.new topic key) r := by
    rw [htxs]
    exact fun r hr => (typed_deployed _ happenings r hr).written
  refine ⟨_, loads_brought lib hwrites hreads polls relations hbrings, ?_⟩
  intro D _ d rs hrs before r after m event hsplit hrun hcall oid
  obtain ⟨done, rest, hrs', hbefore, hr⟩ := List.map_eq_append_iff.mp hsplit
  obtain ⟨w, ws, rfl, rfl, _⟩ := List.map_eq_cons_iff.mp hr
  have hw : w ∈ txs.flatten := hrs (by rw [hrs']; simp)
  subst hbefore
  rw [run_consume] at hrun
  have hcache := run_cache _ _ m _ rfl hrun
  rw [call_handed lib topic key hwrites hreads w (hwrote w hw)] at hcall
  have hrow : ∃ row ∈ rowsOf txs.flatten, row.2 = event := by
    unfold callOf at hcall
    split at hcall
    · next relation event' hpayload =>
      cases hcall
      refine ⟨(relation, event), List.mem_filterMap.mpr ⟨w, hw, ?_⟩, rfl⟩
      rw [Record.row?, hpayload]
    · cases hcall
    · cases hcall
  obtain ⟨row, hrow, rfl⟩ := hrow
  rw [htxs] at hrow
  obtain ⟨rel, hrel⟩ := row_published (KafkaTopics.new topic key) happenings hannouncing row hrow
  rw [← htxs] at hrel
  have hloaded : ∀ log : List (Oid × Relation), ∃ rel',
      collect log (collect (relations.map byOid) (fun _ => none)) row.2.rel = some rel' := by
    intro log
    rw [collect_latest, collect_latest, Option.or_none,
      whole_published topic key txs hwrote partitionOf relations hwhole, hrel]
    cases Compaction.latest row.2.rel log <;> exact ⟨_, rfl⟩
  obtain ⟨rel', hrel'⟩ := hloaded _
  exact event_known row.2 m _ hcache rel' hrel' oid

end Consumer

def widened : Relation := ⟨1, "u", "p", [⟨true, "id", .int4⟩, ⟨false, "n", .text⟩], .keys⟩

def widenedData : Bytes :=
  [0x52, 0,0,0,1, 0x70,0, 0x75,0, 0x64, 0,2, 1, 0x69,0x64,0, 0,0,0,23, 0,0,0,0,
    0, 0x6E,0, 0,0,0,25, 0,0,0,0]

def altered : List Happening :=
  .start [.timeout] :: .replication ⟨.begin, {}⟩ :: ProducerRestarts.announced ::
    (insertAt 1 10 12 {}).drop 1 ++ (.crash :: .start [.timeout] :: .replication ⟨.begin, {}⟩ ::
      .replication ⟨.xlogData widenedData, {}⟩ :: (insertAt 2 20 23 {}).drop 1)

def alteredLog : List (List Record) :=
  (deployed (KafkaTopics.new "cdc" "k") altered ProducerRestarts.fresh).committed

theorem widened_is_whole :
    Whole (fun _ => ()) (KafkaTopics.new "cdc" "k") alteredLog [widened] := by
  apply compactsEach_one
  have hkept : [widened].map (fun rel => keyed ((KafkaTopics.new "cdc" "k").relationRecord rel)) =
      compact ((topicRecords (KafkaTopics.new "cdc" "k").relTopic alteredLog).map keyed) := by
    decide +kernel
  rw [hkept]
  exact compacts_compact _

/-- The load only got the first shape of the table; the topic has lost it. -/
theorem altered_catches_up : ∃ known m,
    loadRelations codec [.message (payloadBytes codec (.relation ids.inner)), .timeout] = .ok known ∧
      known 1 = some ids.inner ∧
      run (consume (clientOf codec "cdc"))
        ((alteredLog.flatten.filter (fun r => r.relation? ≠ some ids.inner)).map (handed codec))
        (new Permissive.mk known) = some m ∧ m.relationCache.fields 1 = some ["id", "n"] := by
  obtain ⟨known, hload, _, _, hreread⟩ := reread_catches_up codec "cdc" "k" (fun _ => ())
    codec_writes codec_reads altered alteredLog rfl
    [.message (payloadBytes codec (.relation ids.inner)), .timeout] [ids.inner]
    (by decide +kernel) ⟨[.timeout], rfl, Or.inr ⟨[], Or.inl rfl⟩⟩
  have hbrought := loads_brought codec codec_writes codec_reads _ [ids.inner]
    ⟨[.timeout], rfl, Or.inr ⟨[], Or.inl rfl⟩⟩
  obtain rfl := Except.ok.inj (hload.symm.trans hbrought)
  have hrun : (run (consume (clientOf codec "cdc"))
      ((alteredLog.flatten.filter (fun r => r.relation? ≠ some ids.inner)).map (handed codec))
      (new Permissive.mk (collect ([ids.inner].map byOid) (fun _ => none)))).isSome = true := by
    decide +kernel
  obtain ⟨m, hm⟩ := Option.isSome_iff_exists.mp hrun
  have hrelations : relationsOf (alteredLog.flatten.filter
      (fun r => r.relation? ≠ some ids.inner)) = [widened] := by decide +kernel
  have hcache := hreread Permissive Permissive.mk _ (List.filter_subset_self _) (by
    rw [hrelations]
    exact widened_is_whole) m hm
  refine ⟨_, m, hload, rfl, hm, ?_⟩
  rw [hcache]
  decide +kernel

theorem widened_drops_none : ∃ known,
    loadRelations codec [.message (payloadBytes codec (.relation widened))] = .ok known ∧
      NoneDropped (clientOf codec "cdc") (alteredLog.flatten.reverse.map (handed codec))
        (new Permissive.mk known) := by
  obtain ⟨known, hload, hnone⟩ := loaded_sink_drops_none codec "cdc" "k" (fun _ => ())
    codec_writes codec_reads altered (by decide +kernel) alteredLog rfl
    [.message (payloadBytes codec (.relation widened))] [widened] ⟨[], rfl, Or.inl rfl⟩
    widened_is_whole
  exact ⟨known, hload, hnone Permissive Permissive.mk _ (List.reverse_subset.mpr (List.Subset.refl _))⟩

end CDC.RelationTopic
