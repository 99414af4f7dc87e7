import CdcConnector.KafkaLoop

/-!
# What the producer writes

A record is an event, a relation or an LSN, each on a topic of its own kind,
so reading a topic by its name reads the records of one kind. A producer that
starts over an earlier log adds to it what it would write on its own.
-/

set_option autoImplicit false

namespace CDC.ProducerLog
open CDC.Fallible CDC.Event CDC.Decoder CDC.RelationDecoder CDC.RowDecoder CDC.ProducerModel
open CDC.TransactionLog CDC.PartialRun CDC.WalReader CDC.KafkaLoop

inductive Written (k : KafkaTopics) : Record → Prop
  | event (relation : Relation) (event : ChangeEvent) : Written k (k.eventRecord relation event)
  | relation (relation : Relation) : Written k (k.relationRecord relation)
  | lsn (lsn : UInt64) : Written k (k.lsnRecord lsn)

def topicRecords (topic : String) (txs : List (List Record)) : List Record :=
  txs.flatten.filter (fun r => r.topic = topic)

theorem topic_suffix (topic a b : String) : topic ++ a = topic ++ b ↔ a = b := by
  rw [← String.toList_inj, ← String.toList_inj, String.toList_append, String.toList_append,
    List.append_cancel_left_eq]

theorem kinds_differ (topic key : String) (relation relation' : Relation) (event : ChangeEvent)
    (lsn : UInt64) :
    ((KafkaTopics.new topic key).eventRecord relation event).topic ≠
        ((KafkaTopics.new topic key).lsnRecord lsn).topic ∧
      ((KafkaTopics.new topic key).eventRecord relation event).topic ≠
        ((KafkaTopics.new topic key).relationRecord relation').topic ∧
      ((KafkaTopics.new topic key).relationRecord relation').topic ≠
        ((KafkaTopics.new topic key).lsnRecord lsn).topic := by
  have hevents : ∀ suffix : String, suffix.toList[1]? ≠ some 'e' →
      topic ++ ".events." ++ relation.relNamespace ++ "." ++ relation.name ≠ topic ++ suffix := by
    intro suffix hsuffix heq
    rw [String.append_assoc, String.append_assoc, String.append_assoc, topic_suffix] at heq
    apply hsuffix
    rw [← heq]
    simp
  refine ⟨hevents ".lsn" (by decide), hevents ".relations" (by decide), ?_⟩
  show topic ++ ".relations" ≠ topic ++ ".lsn"
  rw [ne_eq, topic_suffix]
  decide

section Topics
variable (topic key : String) (records : List Record)
  (h : ∀ r ∈ records, Written (KafkaTopics.new topic key) r)
include h

theorem lsn_topic_records :
    records.filter (fun r => r.topic = topic ++ ".lsn") =
      (lsnsOf records).map (KafkaTopics.new topic key).lsnRecord := by
  induction records with
  | nil => rfl
  | cons r records ih =>
    have ih := ih (fun r hr => h r (List.mem_cons_of_mem _ hr))
    cases h r List.mem_cons_self with
    | event relation event =>
      have hne : ((KafkaTopics.new topic key).eventRecord relation event).topic ≠ topic ++ ".lsn" :=
        (kinds_differ topic key relation relation event 0).1
      rw [List.filter_cons, if_neg (by simpa using hne), ih, lsnsOf_event]
    | relation relation =>
      have hne : ((KafkaTopics.new topic key).relationRecord relation).topic ≠ topic ++ ".lsn" :=
        (kinds_differ topic key relation relation ⟨.delete [], 0⟩ 0).2.2
      rw [List.filter_cons, if_neg (by simpa using hne), ih, lsnsOf_relation]
    | lsn lsn =>
      have heq : ((KafkaTopics.new topic key).lsnRecord lsn).topic = topic ++ ".lsn" := rfl
      rw [List.filter_cons, if_pos (decide_eq_true heq), ih, lsnsOf_lsn, List.map_cons]

theorem relation_topic_records :
    records.filter (fun r => r.topic = topic ++ ".relations") =
      (relationsOf records).map (KafkaTopics.new topic key).relationRecord := by
  induction records with
  | nil => rfl
  | cons r records ih =>
    have ih := ih (fun r hr => h r (List.mem_cons_of_mem _ hr))
    cases h r List.mem_cons_self with
    | event relation event =>
      have hne : ((KafkaTopics.new topic key).eventRecord relation event).topic ≠
          topic ++ ".relations" := (kinds_differ topic key relation relation event 0).2.1
      rw [List.filter_cons, if_neg (by simpa using hne), ih, relationsOf_event]
    | relation relation =>
      have heq : ((KafkaTopics.new topic key).relationRecord relation).topic =
          topic ++ ".relations" := rfl
      rw [List.filter_cons, if_pos (decide_eq_true heq), ih, relationsOf_relation, List.map_cons]
    | lsn lsn =>
      have hne : ((KafkaTopics.new topic key).lsnRecord lsn).topic ≠ topic ++ ".relations" := by
        show topic ++ ".lsn" ≠ topic ++ ".relations"
        rw [ne_eq, topic_suffix]
        decide
      rw [List.filter_cons, if_neg (by simpa using hne), ih, relationsOf_lsn]

def eventTopic (topic : String) (relation : Relation) : String :=
  topic ++ ".events." ++ relation.relNamespace ++ "." ++ relation.name

theorem event_topic_records (relation : Relation) :
    records.filter (fun r => r.topic = eventTopic topic relation) =
      ((rowsOf records).filter (fun row => eventTopic topic row.1 = eventTopic topic relation)).map
        (fun row => (KafkaTopics.new topic key).eventRecord row.1 row.2) := by
  induction records with
  | nil => rfl
  | cons r records ih =>
    have ih := ih (fun r hr => h r (List.mem_cons_of_mem _ hr))
    cases h r List.mem_cons_self with
    | event relation' event =>
      have hname : ((KafkaTopics.new topic key).eventRecord relation' event).topic =
          eventTopic topic relation' := rfl
      rw [List.filter_cons, rowsOf_event, List.filter_cons, hname, ih]
      split
      · rfl
      · rfl
    | relation relation' =>
      have hne : ((KafkaTopics.new topic key).relationRecord relation').topic ≠
          eventTopic topic relation :=
        ((kinds_differ topic key relation relation' ⟨.delete [], 0⟩ 0).2.1).symm
      rw [List.filter_cons, if_neg (by simpa using hne), ih, rowsOf_relation]
    | lsn lsn =>
      have hne : ((KafkaTopics.new topic key).lsnRecord lsn).topic ≠ eventTopic topic relation :=
        ((kinds_differ topic key relation relation ⟨.delete [], 0⟩ lsn).1).symm
      rw [List.filter_cons, if_neg (by simpa using hne), ih, rowsOf_lsn]

end Topics

/-- The record an event can add to the open transaction. -/
def added (k : KafkaTopics) (map : RelationMap) (event : ReplicationEvent) : Option Record :=
  match action map event with
  | .relation rd => some (k.relationRecord rd.inner)
  | .change (.ok (event, rd)) => some (k.eventRecord rd.inner event)
  | .commit _ endLsn => some (k.lsnRecord endLsn)
  | _ => none

structure Logged (k : KafkaTopics) (P : Record → Prop) (s : KafkaReader) : Prop where
  topics : s.producer.toKafkaTopics = k
  pending : ∀ buf, pendingTx s = some buf → ∀ r ∈ buf, P r
  committed : ∀ r ∈ (committedTxs s).flatten, P r

/-- A step writes at most the record its event can add. -/
theorem logged_step (k : KafkaTopics) (P : Record → Prop) (i : Step) (s s' : KafkaReader)
    (h : Logged k P s) (hadded : ∀ r ∈ added k s.relationMap i.event, P r)
    (hs : step i s = some s') : Logged k P s' := by
  have htopics := step_topics i s s' hs
  have hmoves : Moves P s.producer.inner s'.producer.inner := by
    apply step_moves P i s s' hs
    · intro rd ha
      rw [h.topics]
      exact hadded _ (by rw [added, ha]; rfl)
    · intro event rd ha _ _
      rw [h.topics]
      exact hadded _ (by rw [added, ha]; rfl)
    · intro lsn endLsn ha
      rw [h.topics]
      exact hadded _ (by rw [added, ha]; rfl)
  obtain ⟨map, flag, ⟨k, l⟩, ap⟩ := s
  obtain ⟨map', flag', ⟨k', l'⟩, ap'⟩ := s'
  obtain ⟨rfl, hpending, hcommitted⟩ := h
  dsimp only at htopics hmoves
  subst htopics
  cases hmoves with
  | stays => exact ⟨rfl, hpending, hcommitted⟩
  | begins pending c => exact ⟨rfl, fun buf hbuf r hr => (by cases hbuf; cases hr), hcommitted⟩
  | drops pending c => exact ⟨rfl, fun _ hbuf => (by cases hbuf), hcommitted⟩
  | adds buf c r hr =>
    refine ⟨rfl, ?_, hcommitted⟩
    intro buf' hbuf'
    cases hbuf'
    exact List.forall_mem_append.mpr ⟨hpending buf rfl, List.forall_mem_singleton.mpr hr⟩
  | commits buf c r hr =>
    refine ⟨rfl, fun _ hbuf => (by cases hbuf), ?_⟩
    show ∀ x ∈ (c ++ [buf ++ [r]]).flatten, P x
    rw [List.flatten_append, List.flatten_singleton]
    exact List.forall_mem_append.mpr ⟨hcommitted,
      List.forall_mem_append.mpr ⟨hpending buf rfl, List.forall_mem_singleton.mpr hr⟩⟩

abbrev Wrote (k : KafkaTopics) (s : KafkaReader) : Prop := Logged k (Written k) s

theorem added_written (k : KafkaTopics) (map : RelationMap) (event : ReplicationEvent) (r : Record)
    (h : r ∈ added k map event) : Written k r := by
  unfold added at h
  split at h
  · cases h
    exact .relation _
  · cases h
    exact .event _ _
  · cases h
    exact .lsn _
  · cases h

theorem wrote_step (k : KafkaTopics) (i : Step) (s s' : KafkaReader) (h : Wrote k s)
    (hs : step i s = some s') : Wrote k s' :=
  logged_step k (Written k) i s s' h (added_written k s.relationMap i.event) hs

def withPast (past : List (List Record)) (p : KafkaProducer) : KafkaProducer :=
  { p with inner := ⟨p.inner.pending, past ++ p.inner.committed⟩ }

theorem past_simulates (past : List (List Record)) : Simulates (withPast past) where
  startTransaction o p := by
    obtain ⟨k, ⟨pending, c⟩⟩ := p
    cases pending <;> cases h : o.beginTransaction <;>
      simp [withPast, Producer.startTransaction, KafkaProducer.startTransaction, h]
  send o relation event p := by
    obtain ⟨k, ⟨pending, c⟩⟩ := p
    cases pending <;> cases h : o.send <;>
      simp [withPast, Producer.send, KafkaProducer.send, h]
  onRelation o relation p := by
    obtain ⟨k, ⟨pending, c⟩⟩ := p
    cases pending <;> cases h : o.sendRelation <;>
      simp [withPast, Producer.onRelation, KafkaProducer.onRelation, h]
  commitTransaction o lsn p := by
    obtain ⟨k, ⟨pending, c⟩⟩ := p
    cases pending <;> cases h : o.sendLsn <;> cases hc : o.commitTransaction <;>
      simp [withPast, Producer.commitTransaction, KafkaProducer.commitTransaction, h, hc]
  abortTransaction o p := by
    obtain ⟨k, ⟨pending, c⟩⟩ := p
    cases pending <;> cases h : o.abortTransaction <;>
      simp [withPast, Producer.abortTransaction, KafkaProducer.abortTransaction, h]

/-- A producer that starts anew over a log; a transaction left open by the one
before it is aborted when it starts. -/
def restarted (k : KafkaTopics) (past : List (List Record)) : KafkaReader :=
  Reader.init ⟨k, ⟨none, past⟩⟩

end CDC.ProducerLog
