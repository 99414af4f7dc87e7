import CdcConnector.ConsumerRestarts
import CdcConnector.ProducerRestarts
import CdcConnector.SourceMessages

/-!
# The topic of a table

The operations on a table at the source, the row messages the server writes for
them, and the records on the table's topic. A client that reads these calls its
sink with the events of the operations.
-/

set_option autoImplicit false

namespace CDC.TableTopic
open CDC.Fallible CDC.Event CDC.Decoder CDC.RelationDecoder CDC.RowDecoder CDC.ProducerModel
open CDC.PartialRun CDC.WalReader CDC.SerdeAvro CDC.EventAvro CDC.RelationAvro CDC.SinkModel
open CDC.SinkStatements CDC.PostgresSink CDC.SinkDatabase CDC.SourceTable CDC.SinkTable
open CDC.ProducerLog CDC.LsnTopic CDC.SourceWal CDC.SourceMessages CDC.ProducerRestarts
open CDC.ConsumerRestarts CDC.Redelivery CDC.StatementCache
open CDC.KafkaConsumer (KafkaClient Message Partition stripPrefix)
open CDC.TopicOrder (call eventOf)

structure RowMessage where
  data : Bytes
  op : Option SourceOp

structure CommittedTx where
  messages : List RowMessage
  lsn : UInt64
  endLsn : UInt64

def decodedRow (map : RelationMap) (m : RowMessage) : Option Row :=
  match action map (.xlogData m.data) with
  | .change (.ok (event, rd)) => some (rd.inner, event)
  | _ => none

def asWalTx (map : RelationMap) (x : CommittedTx) : WalTx :=
  ⟨x.messages.filterMap (decodedRow map), x.lsn, x.endLsn⟩

def opsOf (xs : List CommittedTx) : List SourceOp :=
  xs.flatMap (fun x => x.messages.filterMap RowMessage.op)

/-- The message of an operation on the table is one the server may write for it;
any other message is of a table with another topic. -/
def Describes (topic : String) (rd : RelationData) (map : RelationMap) (m : RowMessage) : Prop :=
  match m.op with
  | some op => Encodes rd op m.data ∧ carried rd.inner op = true
  | none => ∀ row, decodedRow map m = some row → eventTopic topic row.1 ≠ eventTopic topic rd.inner

/-- The table at the source, from the message that announced it to the
operations on it. -/
structure SourceSide (topic : String) (rd : RelationData) (map : RelationMap) (wal : Wal)
    (xs : List CommittedTx) (before : Finset TableRow) : Prop where
  announced : ∃ data, RelationDecoder.parse data = .ok rd
  by_keys : rd.inner.replicaId = .keys
  has_key : ∃ f ∈ rd.inner.fields, f.isKey = true
  names_nodup : (extractFieldsNames rd.inner).Nodup
  known : map rd.inner.relationOid = some rd
  logged : wal.txs = xs.map (asWalTx map)
  described : ∀ x ∈ xs, ∀ m ∈ x.messages, Describes topic rd map m
  table : RelTable rd.inner before
  valid : Meets (fun op t => some (sourceStep t op)) (Valid rd.inner) (opsOf xs) before

section Source
variable {topic : String} {rd : RelationData} {map : RelationMap} {wal : Wal} {xs : List CommittedTx}
  {before : Finset TableRow}

theorem describes_row (h : SourceSide topic rd map wal xs before) (m : RowMessage)
    (hm : Describes topic rd map m) :
    (decodedRow map m).filter (fun row => eventTopic topic row.1 = eventTopic topic rd.inner) =
      m.op.map (fun op => (rd.inner, toEvent rd.inner op)) := by
  obtain ⟨data, hdata⟩ := h.announced
  unfold Describes at hm
  cases hop : m.op with
  | none =>
    rw [hop] at hm
    cases hrow : decodedRow map m with
    | none => rfl
    | some row =>
      have hne := hm row hrow
      rw [Option.filter_some, if_neg (by simpa using hne)]
      rfl
  | some op =>
    rw [hop] at hm
    have haction := encodes_action rd (parse_built data rd hdata) map h.known h.by_keys h.has_key op
      m.data hm.1 hm.2
    rw [decodedRow, haction, Option.filter_some, if_pos (by simp)]
    rfl

/-- Of the rows in the log, those on the topic are the events of the operations. -/
theorem topic_rows (h : SourceSide topic rd map wal xs before) (ys : List CommittedTx) (hys : ys ⊆ xs) :
    (rowsIn (ys.map (asWalTx map))).filter
        (fun row => eventTopic topic row.1 = eventTopic topic rd.inner) =
      (opsOf ys).map (fun op => (rd.inner, toEvent rd.inner op)) := by
  have hmessages : ∀ ms : List RowMessage, (∀ m ∈ ms, Describes topic rd map m) →
      (ms.filterMap (decodedRow map)).filter
          (fun row => eventTopic topic row.1 = eventTopic topic rd.inner) =
        (ms.filterMap RowMessage.op).map (fun op => (rd.inner, toEvent rd.inner op)) := by
    intro ms hms
    induction ms with
    | nil => rfl
    | cons m ms ih =>
      have ih := ih (fun x hx => hms x (List.mem_cons_of_mem m hx))
      have hrow := describes_row h m (hms m List.mem_cons_self)
      rw [List.filterMap_cons, List.filterMap_cons]
      cases hop : m.op with
      | none =>
        rw [hop] at hrow
        cases hd : decodedRow map m with
        | none => exact ih
        | some row =>
          rw [hd, Option.filter_some, Option.map_none] at hrow
          split_ifs at hrow with hon
          dsimp only
          rw [List.filter_cons, if_neg hon]
          exact ih
      | some op =>
        rw [hop, Option.map_some] at hrow
        obtain ⟨hd, hon⟩ := Option.filter_eq_some_iff.mp hrow
        rw [hd]
        dsimp only
        rw [List.filter_cons, if_pos hon, List.map_cons, ih]
  induction ys with
  | nil => rfl
  | cons y ys ih =>
    have ih := ih (fun x hx => hys (List.mem_cons_of_mem y hx))
    have hy := hmessages y.messages (h.described y (hys List.mem_cons_self))
    have hrows : rowsIn ((y::ys).map (asWalTx map)) =
        y.messages.filterMap (decodedRow map) ++ rowsIn (ys.map (asWalTx map)) := rfl
    have hops : opsOf (y::ys) = y.messages.filterMap RowMessage.op ++ opsOf ys := rfl
    rw [hrows, hops, List.filter_append, hy, ih, List.map_append]

theorem opsOf_parts (xs : List CommittedTx) (n : ℕ) :
    opsOf xs = opsOf (xs.take n) ++ opsOf (xs.drop n) := by
  rw [opsOf, opsOf, opsOf, ← List.flatMap_append, List.take_append_drop]

theorem valid_prefix (ops rest : List SourceOp) (t : Finset TableRow)
    (h : Meets (fun op t => some (sourceStep t op)) (Valid rd.inner) (ops ++ rest) t) :
    Meets (fun op t => some (sourceStep t op)) (Valid rd.inner) ops t := by
  induction ops generalizing t with
  | nil => trivial
  | cons op ops ih =>
    intro t' ht'
    obtain ⟨hop, hrest⟩ := h t' ht'
    exact ⟨hop, ih t' hrest⟩

theorem ops_carried (h : SourceSide topic rd map wal xs before) :
    ∀ op ∈ opsOf xs, carried rd.inner op = true := by
  intro op hop
  obtain ⟨x, hx, hop⟩ := List.mem_flatMap.mp hop
  obtain ⟨m, hm, hop⟩ := List.mem_filterMap.mp hop
  have hdesc := h.described x hx m hm
  rw [Describes, hop] at hdesc
  exact hdesc.2

end Source

section Wire
variable {SerError : Type} (lib : Library SerError) (topic : String)

def clientOf : KafkaClient where
  topic := topic
  eventFromAvro bytes := (fromAvro lib bytes).toOption
  relationFromAvro bytes := (relationFromAvro lib bytes).toOption

theorem payload_read (hwrites : WritesAvro lib) (hreads : ReadsAvro lib) (relation : Relation)
    (event : ChangeEvent) : ∃ bytes, payloadBytes lib (.event relation event) = some bytes ∧
      fromAvro lib bytes = .ok event := by
  obtain ⟨d, hd, hevent⟩ := event_agrees event
  obtain ⟨bytes, hwritten, hread⟩ := written_read lib hwrites hreads _ _ d hd
  refine ⟨bytes, ?_, ?_⟩
  · rw [payloadBytes, intoAvro, hwritten]
    rfl
  · have hboth : (lib.fromDatum changeEventSchema bytes >>= deserializeEvent) = .ok event := by
      rw [hread]
      exact hevent
    rw [fromAvro, hboth]

theorem stripPrefix_topic (relation : Relation) :
    ∃ rest, stripPrefix (eventTopic topic relation) topic = some rest ∧
      ".event".toList.isPrefixOf rest = true := by
  have hlist : (eventTopic topic relation).toList =
      topic.toList ++ (".event".toList ++
        ("s.".toList ++ (relation.relNamespace ++ "." ++ relation.name).toList)) := by
    rw [eventTopic, String.append_assoc, String.append_assoc, String.append_assoc,
      String.toList_append, String.toList_append, ← String.append_assoc]
    rfl
  refine ⟨".event".toList ++ ("s.".toList ++
    (relation.relNamespace ++ "." ++ relation.name).toList), ?_, ?_⟩
  · rw [stripPrefix, hlist, if_pos (by simp), List.drop_left]
  · simp

theorem record_call (hwrites : WritesAvro lib) (hreads : ReadsAvro lib) (relation relation' : Relation)
    (event : ChangeEvent) :
    call (clientOf lib topic)
        ⟨eventTopic topic relation, payloadBytes lib (.event relation' event)⟩ =
      some (.event event) := by
  obtain ⟨bytes, hbytes, hread⟩ := payload_read lib hwrites hreads relation' event
  obtain ⟨rest, hrest, hevent⟩ := stripPrefix_topic topic relation
  have hstrip : stripPrefix (eventTopic topic relation) (clientOf lib topic).topic = some rest := hrest
  rw [call, hbytes]
  dsimp only
  rw [hstrip]
  dsimp only
  rw [if_pos hevent]
  show ((fromAvro lib bytes).toOption).map Call.event = some (.event event)
  rw [hread]
  rfl

end Wire

section Topic
variable {SerError : Type} (lib : Library SerError) (topic key : String)

structure Holds (relation : Relation) (txs : List (List Record)) (p : Partition) : Prop where
  on_topic : p.topic = eventTopic topic relation
  payloads : p.messages.map Message.payload =
    (topicRecords (eventTopic topic relation) txs).map (fun r => payloadBytes lib r.payload)

theorem holds_events {ι : Type} (hwrites : WritesAvro lib) (hreads : ReadsAvro lib)
    (relation : Relation) (txs : List (List Record))
    (hwrote : ∀ r ∈ txs.flatten, ProducerLog.Written (KafkaTopics.new topic key) r)
    (partitions : ι → Partition) (t : ι) (h : Holds lib topic relation txs (partitions t)) :
    eventsOf (clientOf lib topic) partitions t =
      ((rowsOf txs.flatten).filter
        (fun row => eventTopic topic row.1 = eventTopic topic relation)).map Prod.snd := by
  have hevents : eventsOf (clientOf lib topic) partitions t =
      ((partitions t).messages.map Message.payload).filterMap
        (fun payload => (call (clientOf lib topic) ⟨(partitions t).topic, payload⟩).bind eventOf) := by
    rw [List.filterMap_map]
    rfl
  rw [hevents, h.on_topic, h.payloads, topicRecords, event_topic_records topic key _ hwrote relation,
    List.map_map, List.filterMap_map]
  apply List.filterMap_eq_map_iff_forall_eq_some.mpr
  intro row _
  have hcall := record_call lib topic hwrites hreads relation row.1 row.2
  show (call (clientOf lib topic) ⟨eventTopic topic relation,
    payloadBytes lib (.event row.1 row.2)⟩).bind eventOf = some row.2
  rw [hcall]
  rfl

theorem topic_delivered {rd : RelationData} {map : RelationMap} {wal : Wal} {xs : List CommittedTx}
    {before : Finset TableRow} {ι : Type} {partitions : ι → Partition} {t : ι}
    {txs : List (List Record)} {n : ℕ} (hwrites : WritesAvro lib) (hreads : ReadsAvro lib)
    (hsource : SourceSide topic rd map wal xs before)
    (hwrote : ∀ r ∈ txs.flatten, ProducerLog.Written (KafkaTopics.new topic key) r)
    (hrows : Delivered (rowsIn wal.txs) (rowsOf txs.flatten) (rowsIn (wal.txs.take n)).length)
    (hpartition : Holds lib topic rd.inner txs (partitions t)) :
    Delivered ((opsOf xs).map (toEvent rd.inner)) (eventsOf (clientOf lib topic) partitions t)
      (opsOf (xs.take n)).length := by
  have hkept := delivered_map Prod.snd _ _ (delivered_filter
    (fun row => eventTopic topic row.1 = eventTopic topic rd.inner) _ _ hrows)
  have htake : (rowsIn wal.txs).take (rowsIn (wal.txs.take n)).length = rowsIn (wal.txs.take n) := by
    rw [← rowsIn_parts wal n, List.take_left]
  rw [htake, hsource.logged, ← List.map_take, topic_rows hsource xs (List.Subset.refl xs),
    topic_rows hsource _ (List.take_subset n xs), List.length_map, List.map_map] at hkept
  rw [holds_events lib topic key hwrites hreads rd.inner txs hwrote partitions t hpartition]
  exact hkept

end Topic

section Reached
variable {topic : String} {rd : RelationData} {map : RelationMap} {wal : Wal} {xs : List CommittedTx}
  {before : Finset TableRow}

def upTo (position : UInt64) (xs : List CommittedTx) : List CommittedTx :=
  xs.filter (fun x => x.endLsn ≤ position)

def beyond (position : UInt64) (xs : List CommittedTx) : List CommittedTx :=
  xs.filter (fun x => position < x.endLsn)

theorem endOf_parts (hlogged : wal.txs = xs.map (asWalTx map)) (n : ℕ) :
    (∀ x ∈ xs.take n, x.endLsn ≤ wal.endOf n) ∧ ∀ x ∈ xs.drop n, wal.endOf n < x.endLsn := by
  constructor
  · intro x hx
    apply wal.le_endOf n (asWalTx map x)
    rw [hlogged, ← List.map_take]
    exact List.mem_map_of_mem hx
  · intro x hx
    have hmem : asWalTx map x ∈ wal.txs.drop n := by
      rw [hlogged, ← List.map_drop]
      exact List.mem_map_of_mem hx
    have hbehind : wal.endOf n ≤ x.lsn := wal.endOf_le n _ hmem
    have hends : x.lsn < x.endLsn := wal.ends _ (List.drop_subset n _ hmem)
    rw [UInt64.le_iff_toNat_le] at hbehind
    rw [UInt64.lt_iff_toNat_lt] at hends ⊢
    omega

theorem filter_parts {α : Type*} (keeps : α → Bool) (xs : List α) (n : ℕ) :
    xs.filter keeps = (xs.take n).filter keeps ++ (xs.drop n).filter keeps := by
  rw [← List.filter_append, List.take_append_drop]

theorem upTo_endOf (hlogged : wal.txs = xs.map (asWalTx map)) (n : ℕ) :
    upTo (wal.endOf n) xs = xs.take n := by
  obtain ⟨htake, hdrop⟩ := endOf_parts hlogged n
  rw [upTo, filter_parts _ xs n, List.filter_eq_self.mpr, List.filter_eq_nil_iff.mpr, List.append_nil]
  · intro x hx hle
    have hlt := hdrop x hx
    rw [decide_eq_true_eq, UInt64.le_iff_toNat_le] at hle
    rw [UInt64.lt_iff_toNat_lt] at hlt
    omega
  · exact fun x hx => decide_eq_true (htake x hx)

theorem beyond_endOf (hlogged : wal.txs = xs.map (asWalTx map)) (n : ℕ) :
    beyond (wal.endOf n) xs = xs.drop n := by
  obtain ⟨htake, hdrop⟩ := endOf_parts hlogged n
  rw [beyond, filter_parts _ xs n, List.filter_eq_nil_iff.mpr, List.filter_eq_self.mpr, List.nil_append]
  · exact fun x hx => decide_eq_true (hdrop x hx)
  · intro x hx hlt
    have hle := htake x hx
    rw [decide_eq_true_eq, UInt64.lt_iff_toNat_lt] at hlt
    rw [UInt64.le_iff_toNat_le] at hle
    omega

end Reached

end CDC.TableTopic
