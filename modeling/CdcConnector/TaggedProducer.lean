import CdcConnector.KafkaLoop

/-!
# Records that remember their source transaction

The tagged producer counts the calls of `start_transaction`, one for each
`Begin`, and keeps the count with every record. Without the tags it is the
Kafka producer.
-/

set_option autoImplicit false

namespace CDC.TaggedProducer
open CDC.Fallible CDC.Event CDC.Decoder CDC.RelationDecoder CDC.RowDecoder CDC.ProducerModel
open CDC.TransactionLog CDC.PartialRun CDC.WalReader CDC.KafkaLoop

abbrev Tagged := ℕ × Record

structure TagProducer extends KafkaTopics where
  starts : ℕ
  inner : Log Tagged

namespace TagProducer

def new (topic key : String) : TagProducer := ⟨KafkaTopics.new topic key, 0, Log.empty⟩

def startTransaction (o : Outcomes) (p : TagProducer) : TagProducer × Bool :=
  let (log, ok) := p.inner.begin o.beginTransaction
  ({ p with starts := p.starts + 1, inner := log }, ok)

def send (o : Outcomes) (relation : Relation) (event : ChangeEvent) (p : TagProducer) :
    TagProducer × Bool :=
  let (log, ok) := p.inner.append o.send (p.starts, p.eventRecord relation event)
  ({ p with inner := log }, ok)

def onRelation (o : Outcomes) (relation : Relation) (p : TagProducer) : TagProducer × Bool :=
  let (log, ok) := p.inner.append o.sendRelation (p.starts, p.relationRecord relation)
  ({ p with inner := log }, ok)

def commitTransaction (o : Outcomes) (lsn : UInt64) (p : TagProducer) : TagProducer × Bool :=
  let (log, sent) := p.inner.append o.sendLsn (p.starts, p.lsnRecord lsn)
  if sent then
    let (log, ok) := log.commit o.commitTransaction
    ({ p with inner := log }, ok)
  else ({ p with inner := log }, false)

def abortTransaction (o : Outcomes) (p : TagProducer) : TagProducer × Bool :=
  let (log, ok) := p.inner.abort o.abortTransaction
  ({ p with inner := log }, ok)

instance : Producer TagProducer :=
  ⟨startTransaction, send, onRelation, commitTransaction, abortTransaction⟩

def erase (p : TagProducer) : KafkaProducer := ⟨p.toKafkaTopics, p.inner.map Prod.snd⟩

end TagProducer

open TagProducer

theorem erase_simulates : Simulates TagProducer.erase where
  startTransaction o p := by
    simp only [Producer.startTransaction, KafkaProducer.startTransaction, startTransaction, erase,
      Log.begin_map, Prod.map, id]
  send o relation event p := by
    have h := Log.append_map Prod.snd o.send (p.starts, p.eventRecord relation event) p.inner
    simp only [Producer.send, KafkaProducer.send, send, erase, h, Prod.map, id]
  onRelation o relation p := by
    have h := Log.append_map Prod.snd o.sendRelation (p.starts, p.relationRecord relation) p.inner
    simp only [Producer.onRelation, KafkaProducer.onRelation, onRelation, erase, h, Prod.map, id]
  commitTransaction o lsn p := by
    have h := Log.append_map Prod.snd o.sendLsn (p.starts, p.lsnRecord lsn) p.inner
    simp only [Producer.commitTransaction, KafkaProducer.commitTransaction, commitTransaction,
      erase, h, Prod.map, id]
    split <;> simp only [Log.commit_map]
  abortTransaction o p := by
    simp only [Producer.abortTransaction, KafkaProducer.abortTransaction, abortTransaction, erase,
      Log.abort_map, Prod.map, id]

abbrev TagReader := Reader TagProducer

def start (topic key : String) : TagReader := Reader.init (TagProducer.new topic key)

def untagged (s : TagReader) : KafkaReader := s.map erase

/-- Tags change nothing: the tagged run without its tags is the run. -/
theorem run_untagged (topic key : String) (steps : List Step) :
    run step steps (KafkaLoop.start topic key) =
      (run step steps (start topic key)).map untagged :=
  run_map untagged (fun i s => step_map erase_simulates i s) steps (start topic key)

def pendingTags (s : TagReader) : Option (List Tagged) := s.producer.inner.pending

def committedTags (s : TagReader) : List (List Tagged) := s.producer.inner.committed

variable (o : Outcomes) (map : RelationMap) (flag : Bool) (k : KafkaTopics) (n : ℕ)
  (buf : List Tagged) (pending : Option (List Tagged)) (c : List (List Tagged)) (ap : List UInt64)

abbrev tagState : TagReader := ⟨map, flag, ⟨k, n, ⟨pending, c⟩⟩, ap⟩

theorem relation_tagged (rd : RelationData) :
    onRelationMessage o rd (tagState map flag k n pending c ap) =
      tagState (Function.update map rd.inner.relationOid (some rd)) flag k n
        (pending.map fun buf =>
          if o.sendRelation then buf ++ [(n, k.relationRecord rd.inner)] else buf) c ap := by
  cases pending <;> cases h : o.sendRelation <;>
    simp [onRelationMessage, Producer.onRelation, TagProducer.onRelation, h]

theorem send_tagged (event : ChangeEvent) (rd : RelationData) :
    sendToProducer o (.ok (event, rd)) (tagState map flag k n (some buf) c ap) =
      if o.send then tagState map flag k n (some (buf ++ [(n, k.eventRecord rd.inner event)])) c ap
      else tagState map false k n (if o.abortTransaction then none else some buf) c ap := by
  cases h : o.send <;> cases ha : o.abortTransaction <;>
    simp [sendToProducer, Producer.send, TagProducer.send, Producer.abortTransaction,
      TagProducer.abortTransaction, h, ha]

theorem begin_closed_tagged :
    onBegin o (tagState map false k n none c ap) =
      tagState map true k (n+1) (if o.beginTransaction then some [] else none) c ap := by
  cases h : o.beginTransaction <;>
    simp [onBegin, Producer.startTransaction, TagProducer.startTransaction, h]

theorem begin_open_tagged :
    onBegin o (tagState map true k n (some buf) c ap) =
      tagState map true k (n+1)
        (if o.abortTransaction then (if o.beginTransaction then some [] else none)
          else some buf) c ap := by
  cases h : o.abortTransaction <;> cases hb : o.beginTransaction <;>
    simp [onBegin, Producer.startTransaction, TagProducer.startTransaction,
      Producer.abortTransaction, TagProducer.abortTransaction, h, hb]

theorem commit_tagged (lsn endLsn : UInt64) :
    onCommit o lsn endLsn (tagState map true k n (some buf) c ap) =
      if o.sendLsn then
        if o.commitTransaction then
          tagState map false k n none (c ++ [buf ++ [(n, k.lsnRecord endLsn)]]) (ap ++ [lsn])
        else tagState map false k n (some (buf ++ [(n, k.lsnRecord endLsn)])) c ap
      else tagState map false k n (some buf) c ap := by
  cases h : o.sendLsn <;> cases hc : o.commitTransaction <;>
    simp [onCommit, Producer.commitTransaction, TagProducer.commitTransaction, h, hc]

end CDC.TaggedProducer
