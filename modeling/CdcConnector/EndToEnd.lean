import CdcConnector.SinkReplication
import CdcConnector.TableTopic

/-!
# From the source table to the sink table

The whole way of a table with a key: the operations of the source, the row
messages the server writes for them, the producer with its failures and
restarts, the records on the topic of the table, and the consumer with its
failures and restarts. Where the source does nothing the sink cannot follow and
no process commits after it lost a row, a sink that has read the topic to its
end holds the rows the source held at the checkpoint.
-/

set_option autoImplicit false

namespace CDC.EndToEnd
open CDC.Fallible CDC.Event CDC.RelationDecoder CDC.RowDecoder CDC.ProducerModel CDC.PartialRun
open CDC.SerdeAvro
open CDC.SinkModel CDC.SinkStatements CDC.PostgresSink CDC.SinkDatabase CDC.SourceTable
open CDC.SinkTable CDC.SinkTables CDC.SinkReplication CDC.TableReplay CDC.StatementCache
open CDC.LsnTopic CDC.SourceWal CDC.SourceMessages CDC.ProducerRestarts CDC.ConsumerRestarts
open CDC.Replay CDC.Redelivery CDC.TableTopic
open CDC.KafkaConsumer (Message Partition)
open CDC.TopicOrder (call)
open CDC.TupleGrammar (Datum)
open CDC.SourceStream (relationData insertData)

section Sink
variable {D : Type} [PostgresClient D] {tables : D → Tables} {svc : Service}
  {known : Oid → Option Relation} {rel : Relation}

/-- The server takes the statements of the relation, whatever values they bind. -/
structure TakesAll (svc : Service) (rel : Relation) : Prop where
  columns : svc.columns rel = extractFieldsNames rel
  upserts : ∃ admits, svc.upserts rel = some admits ∧ ∀ values, admits values = true
  deletes : ∃ admits, svc.deletes rel = some admits ∧ ∀ values, admits values = true

theorem takes_accepts {columns : List String} {name text : String} {command : Command}
    {admits : List Cell → Bool} (h : Takes tables columns name text command admits)
    (hall : ∀ values, admits values = true) :
    Accepts columns (fun d => tables d name) text command where
  prepared d := by
    obtain ⟨d', hprepare, htables⟩ := h.prepared d
    exact ⟨d', hprepare, congrFun htables name⟩
  short params d hlen := by
    obtain ⟨d', e, hexecute, htables⟩ := h.short params d hlen
    exact ⟨d', e, hexecute, congrFun htables name⟩
  executed params values d hlen hconvert := by
    obtain ⟨d', hexecute, htables⟩ := h.executed params values d hlen hconvert (hall values)
    refine ⟨d', hexecute, ?_⟩
    rw [htables]
    exact Function.update_self _ _ _
  unconverted params e d hlen hconvert := by
    obtain ⟨d', hexecute, htables⟩ := h.unconverted params e d hlen hconvert
    exact ⟨d', hexecute, congrFun htables name⟩

theorem served_table (h : Serves tables svc known) (hknown : known rel.relationOid = some rel)
    (hkeys : rel.replicaId = .keys) (hnames : (extractFieldsNames rel).Nodup)
    (htakes : TakesAll svc rel) : Served (fun d => tables d rel.name) ⟨true, true⟩ rel known := by
  have hupsert := h.hosts.upserts rel.relationOid rel hknown
  have hdelete := h.hosts.deletes rel.relationOid rel hknown
  obtain ⟨admits, hadmits, hall⟩ := htakes.upserts
  obtain ⟨admits', hadmits', hall'⟩ := htakes.deletes
  rw [hadmits, htakes.columns] at hupsert
  rw [hadmits', htakes.columns] at hdelete
  exact ⟨hknown, hkeys, hnames, takes_accepts hupsert hall, takes_accepts hdelete hall'⟩

theorem applyEvent_taken (event : ChangeEvent) (k : Sink D) :
    applyEvent event (some k) =
      if (onEvent event k).2 = panicked then none else some (onEvent event k).1 := by
  rw [applyEvent, Option.bind_some]
  split
  · next heq =>
    rw [heq]
    exact (if_pos rfl).symm
  · next hne heq =>
    rw [heq]
    exact (if_neg hne).symm

theorem op_taken {table : D → Finset TableRow} (h : Served table ⟨true, true⟩ rel known)
    (op : SourceOp) (k : Sink D) (t : Finset TableRow)
    (hinv : Inv table ⟨true, true⟩ rel known (some k) t) (hop : Valid rel t op)
    (hr : replicable rel op = true) :
    (onEvent (toEvent rel op) k).2 ≠ panicked ∧
      Inv table ⟨true, true⟩ rel known (some (onEvent (toEvent rel op) k).1) (sourceStep t op) := by
  have hnext := inv_step h op (some k) t hinv hop ((followed_taken rel op).trans hr)
  have hgoes : (onEvent (toEvent rel op) k).2 ≠ panicked := by
    intro hp
    obtain ⟨k', hk', _⟩ := hnext
    rw [sinkStep, applyEvent_taken, if_pos hp] at hk'
    cases hk'
  rw [sinkStep, applyEvent_taken, if_neg hgoes] at hnext
  exact ⟨hgoes, hnext⟩

theorem applyAll_ops {table : D → Finset TableRow} (h : Served table ⟨true, true⟩ rel known)
    (ops : List SourceOp) (k : Sink D) (t : Finset TableRow)
    (hinv : Inv table ⟨true, true⟩ rel known (some k) t)
    (hvalid : Meets (fun op t => some (sourceStep t op)) (Valid rel) ops t)
    (hops : ∀ op ∈ ops, replicable rel op = true) :
    table (applyAll (ops.map (toEvent rel)) k).1.client = ops.foldl sourceStep t := by
  induction ops generalizing k t with
  | nil =>
    obtain ⟨k', hk', _, htable, _⟩ := hinv
    cases hk'
    exact htable
  | cons op ops ih =>
    obtain ⟨hop, hrest⟩ := hvalid _ rfl
    obtain ⟨hgoes, hnext⟩ := op_taken h op k t hinv hop (hops op List.mem_cons_self)
    rw [List.map_cons, applyAll_goes_on _ _ k hgoes]
    exact ih _ _ hnext hrest (fun x hx => hops x (List.mem_cons_of_mem op hx))

theorem ops_effects {table : D → Finset TableRow} (h : Served table ⟨true, true⟩ rel known)
    (hserves : Serves tables svc known) (ops : List SourceOp) (k : Sink D) (t : Finset TableRow)
    (hinv : Inv table ⟨true, true⟩ rel known (some k) t) (hready : Ready svc known k)
    (hvalid : Meets (fun op t => some (sourceStep t op)) (Valid rel) ops t)
    (hops : ∀ op ∈ ops, replicable rel op = true) :
    ∀ op ∈ ops, (eventEffect svc known (toEvent rel op)).isSome = true := by
  induction ops generalizing k t with
  | nil => exact fun _ hop => by cases hop
  | cons op ops ih =>
    obtain ⟨hop, hrest⟩ := hvalid _ rfl
    obtain ⟨hgoes, hnext⟩ := op_taken h op k t hinv hop (hops op List.mem_cons_self)
    obtain ⟨hdid, hready'⟩ := onEvent_ready hserves (toEvent rel op) k hready
    have ih := ih _ _ hnext hready' hrest (fun x hx => hops x (List.mem_cons_of_mem op hx))
    intro x hx
    rcases List.mem_cons.mp hx with rfl | hx
    · cases heff : eventEffect svc known (toEvent rel x) with
      | none =>
        rw [heff] at hdid
        exact absurd hdid.1 hgoes
      | some f => rfl
    · exact ih x hx

theorem ops_carriedOut {table : D → Finset TableRow} (h : Served table ⟨true, true⟩ rel known)
    (hserves : Serves tables svc known) (ops : List SourceOp) (k : Sink D) (t : Finset TableRow)
    (hinv : Inv table ⟨true, true⟩ rel known (some k) t) (hready : Ready svc known k)
    (hvalid : Meets (fun op t => some (sourceStep t op)) (Valid rel) ops t)
    (hops : ∀ op ∈ ops, replicable rel op = true) (events : List ChangeEvent)
    (hsub : events ⊆ ops.map (toEvent rel)) :
    carriedOut (eventEffect svc known) events =
      events.map (fun event => (eventEffect svc known event).getD id) := by
  apply carriedOut_all
  intro event hevent
  obtain ⟨op, hop, rfl⟩ := List.mem_map.mp (hsub hevent)
  exact ops_effects h hserves ops k t hinv hready hvalid hops op hop

theorem effect_local (event : ChangeEvent) : Local ((eventEffect svc known event).getD id) := by
  cases heff : eventEffect svc known event with
  | none => exact Or.inl rfl
  | some f =>
    rcases eventEffect_local event f heff with rfl | ⟨rel, g, _, rfl⟩
    · exact Or.inl rfl
    · exact Or.inr ⟨rel.name, g, rfl⟩

theorem value_null (c : Cell) : value c = .null ↔ c = .null := by
  cases c <;> simp [value]

theorem row_keys (row : TableRow) (h : RelRow rel row) :
    keysPresent rel (.insert (row.map value)) = true := by
  rw [keysPresent, List.all_eq_true]
  intro c hc
  rw [decide_eq_true_eq, List.getElem?_map]
  intro hnull
  obtain ⟨x, hx, hvalue⟩ := Option.map_eq_some_iff.mp hnull
  apply h.key_present
  apply List.mem_map.mpr
  refine ⟨c, hc, ?_⟩
  rw [cell, hx, Option.getD_some, (value_null x).mp hvalue]

theorem op_keys (hknown : known rel.relationOid = some rel) (t : Finset TableRow) (op : SourceOp)
    (h : Valid rel t op) (hr : replicable rel op = true) :
    eventKeysPresent known (toEvent rel op) = true := by
  cases op with
  | insert row =>
    simp only [toEvent, eventKeysPresent, hknown, mergeToasted]
    exact row_keys row h.1
  | delete old =>
    simp only [toEvent, eventKeysPresent, hknown, mergeToasted]
    rfl
  | update old new unchanged =>
    obtain ⟨_, hnew, _, hlen, _⟩ := h
    simp only [toEvent, eventKeysPresent, hknown]
    have hsame : keyCells rel old = keyCells rel new := by
      simp only [replicable, Bool.and_eq_true, decide_eq_true_eq] at hr
      exact hr.1.symm
    rw [if_pos hsame]
    cases hu : unchanged.contains true with
    | true => rw [merge_short new unchanged hlen hu]
    | false =>
      rw [merge_whole [] new unchanged hlen hu]
      exact row_keys new hnew

theorem ops_keys (hknown : known rel.relationOid = some rel) (ops : List SourceOp)
    (t : Finset TableRow) (hvalid : Meets (fun op t => some (sourceStep t op)) (Valid rel) ops t)
    (hops : ∀ op ∈ ops, replicable rel op = true) :
    ∀ event ∈ ops.map (toEvent rel), eventKeysPresent known event = true := by
  induction ops generalizing t with
  | nil => exact fun _ h => by cases h
  | cons op ops ih =>
    obtain ⟨hop, hrest⟩ := hvalid _ rfl
    have ih := ih _ hrest (fun x hx => hops x (List.mem_cons_of_mem op hx))
    intro event hevent
    rcases List.mem_cons.mp hevent with rfl | hevent
    · exact op_keys hknown t op hop (hops op List.mem_cons_self)
    · exact ih event hevent

end Sink

section Whole
variable {SerError : Type} {lib : Library SerError} {topic : String} (key : String) {rd : RelationData}
  {map : RelationMap} {wal : Wal} {xs : List CommittedTx} {D : Type} [PostgresClient D]
  {tables : D → Tables} {svc : Service} {known : Oid → Option Relation} {ι : Type} [DecidableEq ι]
  {partitions : ι → Partition}

/-- Whatever failed, crashed and was started again on either side, a running
sink that has read the table's topic to its end holds the table of the source at
the checkpoint. -/
theorem sink_is_source (hwrites : WritesAvro lib) (hreads : ReadsAvro lib)
    (hserves : Serves tables svc known) (hknown : known rd.inner.relationOid = some rd.inner)
    (htakes : TakesAll svc rd.inner) (d : D)
    (hsource : SourceSide topic rd map wal xs (tables d rd.inner.name))
    (happenings : List Happening)
    (hgiven : Meets (deploy (KafkaTopics.new topic key)) (Given wal (WholeRead lib topic))
      happenings fresh)
    (hheld : Meets (deploy (KafkaTopics.new topic key)) HeldBack happenings fresh)
    (txs : List (List Record))
    (htxs : txs = (deployed (KafkaTopics.new topic key) happenings fresh).committed)
    (t : ι) (hpartition : Holds lib topic rd.inner txs (partitions t))
    (hsettled : Settled (clientOf lib topic) known partitions)
    (hown : Owns (clientOf lib topic) known partitions t rd.inner.name) (is : List (Turn ι))
    (hfinished : AllFinished (clientOf lib topic) known partitions is (start known d : Consumer ι D))
    (s : Consumer ι D) (hs : s = turns (clientOf lib topic) known partitions is (start known d))
    (hend : (partitions t).next (s.position t) = none) :
    tables s.sink.client rd.inner.name =
      (opsOf (upTo (checkpoint txs) xs)).foldl sourceStep (tables d rd.inner.name) := by
  have hr := whole_resumes lib topic key wal
  obtain ⟨hwrote, n, hat⟩ := deployed_at hr happenings hgiven hheld
  rw [← htxs] at hwrote hat
  have hxs : upTo (checkpoint txs) xs = xs.take n := by
    rw [at_checkpoint hat, upTo_endOf hsource.logged]
  have hevents : eventsOf (clientOf lib topic) partitions t =
      (opsOf (xs.take n)).map (toEvent rd.inner) := by
    rw [holds_events lib topic key hwrites hreads rd.inner txs hwrote partitions t hpartition, hat.rows,
      hsource.logged, ← List.map_take, topic_rows hsource _ (List.take_subset n xs), List.map_map]
    rfl
  have hops : opsOf xs = opsOf (xs.take n) ++ opsOf (xs.drop n) := opsOf_parts xs n
  have hvalid := hsource.valid
  rw [hops] at hvalid
  have hserved := served_table hserves hknown hsource.by_keys hsource.names_nodup htakes
  obtain ⟨log, htracked⟩ := tracked_from_start hserves hsettled d is hfinished
  rw [← hs] at htracked
  rw [caught_up hserves hsettled htracked t _ hown hend, hevents, hxs]
  apply applyAll_ops hserved _ (new d known) (tables d rd.inner.name)
  · exact ⟨new d known, rfl, inStep_new d, rfl, hsource.table⟩
  · exact valid_prefix _ _ _ hvalid
  · intro op hop
    apply carried_replicable
    apply ops_carried hsource
    rw [hops]
    exact List.mem_append_left _ hop

/-- Where reads of the LSN topic may be cut short, the table's topic may bring
events again. A running sink that has read it to its end needs only the events
behind the checkpoint to hold the source's table. -/
theorem sink_catches_up (hwrites : WritesAvro lib) (hreads : ReadsAvro lib)
    (hserves : Serves tables svc known) (hknown : known rd.inner.relationOid = some rd.inner)
    (htakes : TakesAll svc rd.inner) (d : D)
    (hsource : SourceSide topic rd map wal xs (tables d rd.inner.name))
    (happenings : List Happening)
    (hgiven : Meets (deploy (KafkaTopics.new topic key)) (Given wal EarlyRead) happenings fresh)
    (hheld : Meets (deploy (KafkaTopics.new topic key)) HeldBack happenings fresh)
    (txs : List (List Record))
    (htxs : txs = (deployed (KafkaTopics.new topic key) happenings fresh).committed)
    (t : ι) (hpartition : Holds lib topic rd.inner txs (partitions t))
    (hsettled : Settled (clientOf lib topic) known partitions)
    (hown : Owns (clientOf lib topic) known partitions t rd.inner.name) (is : List (Turn ι))
    (hfinished : AllFinished (clientOf lib topic) known partitions is (start known d : Consumer ι D))
    (s : Consumer ι D) (hs : s = turns (clientOf lib topic) known partitions is (start known d))
    (hend : (partitions t).next (s.position t) = none) :
    tables (applyAll ((opsOf (beyond (checkpoint txs) xs)).map (toEvent rd.inner))
        (new s.sink.client known)).1.client rd.inner.name =
      (opsOf xs).foldl sourceStep (tables d rd.inner.name) := by
  have hr := early_resumes topic key wal
  obtain ⟨hwrote, n, hat⟩ := deployed_at hr happenings hgiven hheld
  rw [← htxs] at hwrote hat
  have hxs : beyond (checkpoint txs) xs = xs.drop n := by
    rw [at_checkpoint hat, beyond_endOf hsource.logged]
  have hserved := served_table hserves hknown hsource.by_keys hsource.names_nodup htakes
  have hops : ∀ op ∈ opsOf xs, replicable rd.inner op = true :=
    fun op hop => carried_replicable _ op (ops_carried hsource op hop)
  have hinv : Inv (fun d => tables d rd.inner.name) ⟨true, true⟩ rd.inner known (some (new d known))
      (tables d rd.inner.name) := ⟨new d known, rfl, inStep_new d, rfl, hsource.table⟩
  have hready := reached_ready hserves _ (.new d)
  -- what is on the topic is delivered from the events of the operations
  have hdelivered := topic_delivered lib topic key hwrites hreads hsource hwrote hat.rows
    hpartition
  have hcarried := ops_carriedOut hserved hserves (opsOf xs) _ _ hinv hready hsource.valid hops
  have hlast := events_last_wins hserves _ (ops_keys hknown (opsOf xs) _ hsource.valid hops)
  rw [hcarried _ (List.Subset.refl _)] at hlast
  have hcompletes := delivered_completes hlast _ (delivered_map _ _ _ hdelivered) (tables d) _
    (Nat.le_refl _)
  obtain ⟨log, htracked⟩ := tracked_from_start hserves hsettled d is hfinished
  rw [← hs] at htracked
  have hnow := caught_up hserves hsettled htracked t _ hown hend
  rw [applyAll_tables hserves _ _ hready, hcarried _ (delivered_mem _ _ hdelivered)] at hnow
  have hrest : (opsOf (xs.drop n)).map (toEvent rd.inner) =
      ((opsOf xs).map (toEvent rd.inner)).drop (opsOf (xs.take n)).length := by
    rw [opsOf_parts xs n, List.map_append, List.drop_left' (List.length_map _)]
  calc
    tables (applyAll ((opsOf (beyond (checkpoint txs) xs)).map (toEvent rd.inner))
        (new s.sink.client known)).1.client rd.inner.name =
      applied (((opsOf xs).map (toEvent rd.inner)).drop (opsOf (xs.take n)).length |>.map
        (fun event => (eventEffect svc known event).getD id)) (tables s.sink.client)
          rd.inner.name := by
      rw [applyAll_tables hserves _ _ (reached_ready hserves _ (.new _)), hxs, hrest,
        hcarried _ (List.drop_subset _ _)]
      rfl
    _ = applied (((opsOf xs).map (toEvent rd.inner)).map
        (fun event => (eventEffect svc known event).getD id)) (tables d) rd.inner.name := by
      rw [← hcompletes, List.map_drop]
      apply applied_local _ _ _ _ _ hnow
      intro f hf
      obtain ⟨event, hevent, rfl⟩ := List.mem_map.mp (List.drop_subset _ _ hf)
      exact effect_local event
    _ = (opsOf xs).foldl sourceStep (tables d rd.inner.name) := by
      rw [← hcarried _ (List.Subset.refl _)]
      have hall := congrFun (applyAll_tables hserves ((opsOf xs).map (toEvent rd.inner)) _ hready)
        rd.inner.name
      exact hall.symm.trans (applyAll_ops hserved _ _ _ hinv hsource.valid hops)

end Whole

def ids : RelationData :=
  ⟨⟨1, "u", "p", [⟨true, "id", .int4⟩], .keys⟩, [⟨"id", .int4⟩], [0]⟩

def idsKnown (oid : Oid) : Option Relation := if oid = 1 then some ids.inner else none

def idsMap (oid : Oid) : Option RelationData := if oid = 1 then some ids else none

def insertId (n : UInt8) : RowMessage := ⟨insertData n, some (.insert [.int4 n.toUInt32.toInt32])⟩

def twoIds : List CommittedTx := [⟨[insertId 1], 10, 12⟩, ⟨[insertId 2], 20, 23⟩]

def idsPartition : Partition :=
  ⟨"cdc.events.p.u", [⟨0, some [0, 2, 2, 2, 0, 2]⟩, ⟨3, some [0, 2, 2, 4, 0, 2]⟩], by simp⟩

def firstAgain : List Happening :=
  .start [.timeout] :: announced :: insertAt 1 10 12 {} ++
    (insertAt 2 20 23 {} ++ (.crash :: .start [.timeout] :: announced :: insertAt 1 10 12 {}))

def idsTwice : Partition :=
  ⟨"cdc.events.p.u", [⟨0, some [0, 2, 2, 2, 0, 2]⟩, ⟨2, some [0, 2, 2, 4, 0, 2]⟩,
    ⟨5, some [0, 2, 2, 2, 0, 2]⟩], by simp⟩

def readAgain : List (Turn Unit) :=
  [.poll () false, .restart, .poll () true, .killed (), .autoCommit () 1, .restart, .poll () true]

theorem ids_served : Serves (Server.tables : Server [ids.inner] → Tables) Server.service idsKnown := by
  have honly : ∀ oid rel, idsKnown oid = some rel → oid = 1 ∧ rel = ids.inner := by
    intro oid rel h
    unfold idsKnown at h
    split at h
    · next ho => exact ⟨ho, (Option.some.inj h).symm⟩
    · cases h
  refine ⟨Server.hosts _ ?_ ?_, fun _ _ _ _ _ hc => hc⟩
  · intro oid oid' rel rel' h h' _
    rw [(honly oid rel h).1, (honly oid' rel' h').1]
  · intro oid rel h
    rw [(honly oid rel h).2]
    exact ⟨ids.inner, rfl, rfl, by decide +kernel, by decide +kernel⟩

theorem insertId_encoded (n : UInt8) (hn : n = 1 ∨ n = 2) :
    Encodes ids (.insert [.int4 n.toUInt32.toInt32]) (insertData n) := by
  have hinsert := @Encodes.insert ids [.int4 n.toUInt32.toInt32]
    [.binary (.int4 n.toUInt32.toInt32)]
    (List.Forall₂.cons ⟨⟨by simp [Datum.payload], rfl⟩, fun h => (by cases h)⟩ List.Forall₂.nil) rfl
  rcases hn with rfl | rfl
  · exact hinsert
  · exact hinsert

theorem twoIds_source : SourceSide "cdc" ids idsMap twoInserts twoIds ∅ where
  announced := ⟨relationData, by decide +kernel⟩
  by_keys := rfl
  has_key := ⟨_, List.mem_singleton_self _, rfl⟩
  names_nodup := by decide
  known := rfl
  logged := by decide +kernel
  described := by
    intro x hx m hm
    simp only [twoIds, List.mem_cons, List.not_mem_nil, or_false] at hx
    rcases hx with rfl | rfl
    · rw [List.mem_singleton.mp hm]
      exact ⟨insertId_encoded 1 (Or.inl rfl), by decide⟩
    · rw [List.mem_singleton.mp hm]
      exact ⟨insertId_encoded 2 (Or.inr rfl), by decide⟩
  table := ⟨fun _ h => (by cases h), fun _ h => (by cases h)⟩
  valid := by decide +kernel

theorem ids_settled (p : Partition) (h : ∀ m ∈ p.messages,
    ∃ n, call (clientOf codec "cdc") (record (fun _ : Unit => p) () m) =
      some (.event ⟨.insert [.int4 n], 1⟩)) :
    Settled (clientOf codec "cdc") idsKnown (fun _ : Unit => p) where
  announced t m hm relation hcall := by
    obtain ⟨n, hevent⟩ := h m hm
    have hevent := hevent.symm.trans hcall
    cases hevent
  keyed t m hm event hcall := by
    obtain ⟨n, hevent⟩ := h m hm
    have hevent := hevent.symm.trans hcall
    cases hevent
    rfl

theorem idsPartition_settled :
    Settled (clientOf codec "cdc") idsKnown (fun _ : Unit => idsPartition) := by
  apply ids_settled
  intro m hm
  simp only [idsPartition, List.mem_cons, List.not_mem_nil, or_false] at hm
  rcases hm with rfl | rfl
  · exact ⟨1, rfl⟩
  · exact ⟨2, rfl⟩

theorem idsTwice_settled : Settled (clientOf codec "cdc") idsKnown (fun _ : Unit => idsTwice) := by
  apply ids_settled
  intro m hm
  simp only [idsTwice, List.mem_cons, List.not_mem_nil, or_false] at hm
  rcases hm with rfl | rfl | rfl
  · exact ⟨1, rfl⟩
  · exact ⟨2, rfl⟩
  · exact ⟨1, rfl⟩

theorem ids_taken : TakesAll (Server.service) ids.inner :=
  ⟨rfl, ⟨_, rfl, fun _ => rfl⟩, ⟨_, rfl, fun _ => rfl⟩⟩

theorem crashed_sink_is_source :
    (turns (clientOf codec "cdc") idsKnown (fun _ : Unit => idsPartition) readAgain
        (start idsKnown (⟨fun _ => ∅⟩ : Server [ids.inner]))).sink.client.tables "u" =
      {[.int4 1], [.int4 2]} := by
  have hgiven : Meets (deploy (KafkaTopics.new "cdc" "k")) (Given twoInserts (FullRead "cdc"))
      crashed fresh := by decide +kernel
  have htables := sink_is_source "k" codec_writes codec_reads ids_served rfl
    ids_taken (⟨fun _ => ∅⟩ : Server [ids.inner]) twoIds_source crashed
    (meets_imp (given_imp twoInserts (full_is_whole "cdc")) crashed fresh hgiven)
    (by decide +kernel) _ rfl () ⟨rfl, by decide +kernel⟩ idsPartition_settled
    (fun t' ht => absurd rfl ht) readAgain (by decide +kernel) _ rfl (by decide +kernel)
  rw [show "u" = ids.inner.name from rfl, htables]
  decide +kernel

def readTwice : List (Turn Unit) :=
  [.poll () true, .poll () false, .killed (), .autoCommit () 2, .restart, .poll () false, .poll () true]

theorem crashed_unread_sink_catches_up :
    opsOf (beyond (checkpoint (deployed (KafkaTopics.new "cdc" "k") firstAgain fresh).committed)
        twoIds) = [.insert [.int4 2]] ∧
      (applyAll ([.insert [.int4 2]].map (toEvent ids.inner))
        (new (turns (clientOf codec "cdc") idsKnown (fun _ : Unit => idsTwice) readTwice
          (start idsKnown (⟨fun _ => ∅⟩ : Server [ids.inner]))).sink.client idsKnown)).1.client.tables
            "u" = {[.int4 1], [.int4 2]} := by
  have hgiven : Meets (deploy (KafkaTopics.new "cdc" "k"))
      (Given twoInserts (fun _ polls => polls = [.timeout])) firstAgain fresh := by
    decide +kernel
  have htables := sink_catches_up "k" codec_writes codec_reads ids_served rfl
    ids_taken (⟨fun _ => ∅⟩ : Server [ids.inner]) twoIds_source firstAgain
    (meets_imp (given_imp twoInserts timeout_is_early) firstAgain fresh hgiven)
    (by decide +kernel) _ rfl () ⟨rfl, by decide +kernel⟩ idsTwice_settled
    (fun t' ht => absurd rfl ht) readTwice (by decide +kernel) _ rfl (by decide +kernel)
  have hbeyond : opsOf (beyond (checkpoint (deployed (KafkaTopics.new "cdc" "k") firstAgain
      fresh).committed) twoIds) = [.insert [.int4 2]] := by
    decide +kernel
  rw [hbeyond] at htables
  exact ⟨hbeyond, htables.trans (by decide +kernel)⟩

end CDC.EndToEnd
