import CdcConnector.BigEndian
import CdcConnector.Decoder
import CdcConnector.TransactionLog

/-!
# The producer and its Kafka transactions

The reader is generic in its producer. Every call may fail; which calls fail
is decided by the environment, one answer for each kind of call made while
one replication event is processed. The Kafka client is a transactional log:
records sent inside a transaction become visible when it commits, and
sending, committing and aborting need an open transaction.
-/

set_option autoImplicit false

namespace CDC.ProducerModel
open CDC.Event CDC.Decoder CDC.TransactionLog

structure Outcomes where
  beginTransaction : Bool := true
  send : Bool := true
  sendRelation : Bool := true
  sendLsn : Bool := true
  commitTransaction : Bool := true
  abortTransaction : Bool := true
  deriving DecidableEq, Repr

/-- Opening, committing and aborting succeed; rows and relations may still fail
to be sent. -/
def Calm (o : Outcomes) : Prop :=
  o.beginTransaction = true ∧ o.sendLsn = true ∧ o.commitTransaction = true ∧
    o.abortTransaction = true

class Producer (P : Type) where
  startTransaction : Outcomes → P → P × Bool
  send : Outcomes → Relation → ChangeEvent → P → P × Bool
  onRelation : Outcomes → Relation → P → P × Bool
  commitTransaction : Outcomes → UInt64 → P → P × Bool
  abortTransaction : Outcomes → P → P × Bool

/-- An event keeps the relation it was sent with; only the relation's names
reach the wire, in the topic. -/
inductive Payload where
  | event (relation : Relation) (event : ChangeEvent)
  | relation (relation : Relation)
  | lsn (lsn : UInt64)
  deriving DecidableEq

structure Record where
  topic : String
  key : Bytes
  payload : Payload
  deriving DecidableEq

structure KafkaTopics where
  topic : String
  lsnTopic : String
  relTopic : String
  key : String
  deriving DecidableEq

namespace KafkaTopics

def new (topic key : String) : KafkaTopics :=
  ⟨topic, topic ++ ".lsn", topic ++ ".relations", key⟩

def eventRecord (k : KafkaTopics) (relation : Relation) (event : ChangeEvent) : Record :=
  ⟨k.topic ++ ".events." ++ relation.relNamespace ++ "." ++ relation.name, utf8Bytes k.key,
    .event relation event⟩

def relationRecord (k : KafkaTopics) (relation : Relation) : Record :=
  ⟨k.relTopic, BigEndian.toBytes 4 relation.relationOid.toNat, .relation relation⟩

def lsnRecord (k : KafkaTopics) (lsn : UInt64) : Record :=
  ⟨k.lsnTopic, utf8Bytes "lsn", .lsn lsn⟩

end KafkaTopics

structure KafkaProducer extends KafkaTopics where
  inner : Log Record

namespace KafkaProducer

def new (topic key : String) : KafkaProducer := ⟨KafkaTopics.new topic key, Log.empty⟩

def startTransaction (o : Outcomes) (p : KafkaProducer) : KafkaProducer × Bool :=
  let (log, ok) := p.inner.begin o.beginTransaction
  ({ p with inner := log }, ok)

def send (o : Outcomes) (relation : Relation) (event : ChangeEvent) (p : KafkaProducer) :
    KafkaProducer × Bool :=
  let (log, ok) := p.inner.append o.send (p.eventRecord relation event)
  ({ p with inner := log }, ok)

def onRelation (o : Outcomes) (relation : Relation) (p : KafkaProducer) : KafkaProducer × Bool :=
  let (log, ok) := p.inner.append o.sendRelation (p.relationRecord relation)
  ({ p with inner := log }, ok)

/-- The LSN is the last record of its transaction; when it cannot be sent the
transaction is not committed. -/
def commitTransaction (o : Outcomes) (lsn : UInt64) (p : KafkaProducer) : KafkaProducer × Bool :=
  let (log, sent) := p.inner.append o.sendLsn (p.lsnRecord lsn)
  if sent then
    let (log, ok) := log.commit o.commitTransaction
    ({ p with inner := log }, ok)
  else ({ p with inner := log }, false)

def abortTransaction (o : Outcomes) (p : KafkaProducer) : KafkaProducer × Bool :=
  let (log, ok) := p.inner.abort o.abortTransaction
  ({ p with inner := log }, ok)

instance : Producer KafkaProducer :=
  ⟨startTransaction, send, onRelation, commitTransaction, abortTransaction⟩

end KafkaProducer

abbrev Row := Relation × ChangeEvent

def Record.row? (r : Record) : Option Row :=
  match r.payload with
  | .event relation event => some (relation, event)
  | _ => none

def Record.relation? (r : Record) : Option Relation :=
  match r.payload with
  | .relation relation => some relation
  | _ => none

def Record.lsn? (r : Record) : Option UInt64 :=
  match r.payload with
  | .lsn lsn => some lsn
  | _ => none

def rowsOf (tx : List Record) : List Row := tx.filterMap Record.row?

def relationsOf (tx : List Record) : List Relation := tx.filterMap Record.relation?

def lsnsOf (tx : List Record) : List UInt64 := tx.filterMap Record.lsn?

section Contents
variable (k : KafkaTopics) (tx rest : List Record)

@[simp] theorem rowsOf_nil : rowsOf [] = [] := rfl
@[simp] theorem relationsOf_nil : relationsOf [] = [] := rfl
@[simp] theorem lsnsOf_nil : lsnsOf [] = [] := rfl

@[simp] theorem rowsOf_append : rowsOf (tx ++ rest) = rowsOf tx ++ rowsOf rest :=
  List.filterMap_append

@[simp] theorem relationsOf_append : relationsOf (tx ++ rest) = relationsOf tx ++ relationsOf rest :=
  List.filterMap_append

@[simp] theorem lsnsOf_append : lsnsOf (tx ++ rest) = lsnsOf tx ++ lsnsOf rest :=
  List.filterMap_append

@[simp] theorem rowsOf_event (relation : Relation) (event : ChangeEvent) :
    rowsOf (k.eventRecord relation event :: tx) = (relation, event) :: rowsOf tx := rfl
@[simp] theorem relationsOf_event (relation : Relation) (event : ChangeEvent) :
    relationsOf (k.eventRecord relation event :: tx) = relationsOf tx := rfl
@[simp] theorem lsnsOf_event (relation : Relation) (event : ChangeEvent) :
    lsnsOf (k.eventRecord relation event :: tx) = lsnsOf tx := rfl

@[simp] theorem rowsOf_relation (relation : Relation) :
    rowsOf (k.relationRecord relation :: tx) = rowsOf tx := rfl
@[simp] theorem relationsOf_relation (relation : Relation) :
    relationsOf (k.relationRecord relation :: tx) = relation :: relationsOf tx := rfl
@[simp] theorem lsnsOf_relation (relation : Relation) :
    lsnsOf (k.relationRecord relation :: tx) = lsnsOf tx := rfl

@[simp] theorem rowsOf_lsn (lsn : UInt64) : rowsOf (k.lsnRecord lsn :: tx) = rowsOf tx := rfl
@[simp] theorem relationsOf_lsn (lsn : UInt64) :
    relationsOf (k.lsnRecord lsn :: tx) = relationsOf tx := rfl
@[simp] theorem lsnsOf_lsn (lsn : UInt64) :
    lsnsOf (k.lsnRecord lsn :: tx) = lsn :: lsnsOf tx := rfl

end Contents

end CDC.ProducerModel
