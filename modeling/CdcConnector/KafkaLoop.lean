import CdcConnector.SourceStream

/-!
# The replication loop over the Kafka producer

One equation for every operation of the loop, by whether a Kafka transaction
is open. Later modules split on these and never unfold the loop.
-/

set_option autoImplicit false

namespace CDC.KafkaLoop
open CDC.Fallible CDC.Event CDC.Decoder CDC.RelationDecoder CDC.RowDecoder CDC.ProducerModel
open CDC.TransactionLog CDC.PartialRun CDC.WalReader CDC.SourceStream

abbrev KafkaReader := Reader KafkaProducer

def start (topic key : String) : KafkaReader := Reader.init (KafkaProducer.new topic key)

def pendingTx (s : KafkaReader) : Option (List Record) := s.producer.inner.pending

def committedTxs (s : KafkaReader) : List (List Record) := s.producer.inner.committed

def committedRows (s : KafkaReader) : List Row := rowsOf (committedTxs s).flatten

def committedLsns (s : KafkaReader) : List UInt64 := lsnsOf (committedTxs s).flatten

variable (o : Outcomes) (map : RelationMap) (flag : Bool) (k : KafkaTopics)
  (buf : List Record) (pending : Option (List Record)) (c : List (List Record))
  (ap : List UInt64)

abbrev state : KafkaReader := ⟨map, flag, ⟨k, ⟨pending, c⟩⟩, ap⟩

@[simp] theorem pendingTx_state : pendingTx (state map flag k pending c ap) = pending := rfl

@[simp] theorem committedTxs_state : committedTxs (state map flag k pending c ap) = c := rfl

@[simp] theorem relation_closed (rd : RelationData) :
    onRelationMessage o rd (state map flag k none c ap) =
      state (Function.update map rd.inner.relationOid (some rd)) flag k none c ap := by
  simp [onRelationMessage, Producer.onRelation, KafkaProducer.onRelation]

@[simp] theorem relation_open (rd : RelationData) :
    onRelationMessage o rd (state map flag k (some buf) c ap) =
      state (Function.update map rd.inner.relationOid (some rd)) flag k
        (some (if o.sendRelation then buf ++ [k.relationRecord rd.inner] else buf)) c ap := by
  cases h : o.sendRelation <;>
    simp [onRelationMessage, Producer.onRelation, KafkaProducer.onRelation, h]

@[simp] theorem send_undecodable (e : DecoderError) :
    sendToProducer o (.error e) (state map flag k pending c ap) =
      state map flag k pending c ap := rfl

@[simp] theorem send_closed (event : ChangeEvent) (rd : RelationData) :
    sendToProducer o (.ok (event, rd)) (state map flag k none c ap) =
      state map false k none c ap := by
  simp [sendToProducer, Producer.send, KafkaProducer.send, Producer.abortTransaction,
    KafkaProducer.abortTransaction]

@[simp] theorem send_open (event : ChangeEvent) (rd : RelationData) :
    sendToProducer o (.ok (event, rd)) (state map flag k (some buf) c ap) =
      if o.send then state map flag k (some (buf ++ [k.eventRecord rd.inner event])) c ap
      else state map false k (if o.abortTransaction then none else some buf) c ap := by
  cases h : o.send <;> cases ha : o.abortTransaction <;>
    simp [sendToProducer, Producer.send, KafkaProducer.send, Producer.abortTransaction,
      KafkaProducer.abortTransaction, h, ha]

@[simp] theorem begin_closed :
    onBegin o (state map flag k none c ap) =
      state map true k (if o.beginTransaction then some [] else none) c ap := by
  cases flag <;> cases h : o.beginTransaction <;>
    simp [onBegin, Producer.startTransaction, KafkaProducer.startTransaction,
      Producer.abortTransaction, KafkaProducer.abortTransaction, h]

@[simp] theorem begin_unnoticed :
    onBegin o (state map false k (some buf) c ap) = state map true k (some buf) c ap := by
  simp [onBegin, Producer.startTransaction, KafkaProducer.startTransaction]

@[simp] theorem begin_open :
    onBegin o (state map true k (some buf) c ap) =
      state map true k
        (if o.abortTransaction then (if o.beginTransaction then some [] else none)
          else some buf) c ap := by
  cases h : o.abortTransaction <;> cases hb : o.beginTransaction <;>
    simp [onBegin, Producer.startTransaction, KafkaProducer.startTransaction,
      Producer.abortTransaction, KafkaProducer.abortTransaction, h, hb]

@[simp] theorem commit_skipped (lsn endLsn : UInt64) :
    onCommit o lsn endLsn (state map false k pending c ap) = state map false k pending c ap := rfl

@[simp] theorem commit_closed (lsn endLsn : UInt64) :
    onCommit o lsn endLsn (state map true k none c ap) = state map false k none c ap := by
  simp [onCommit, Producer.commitTransaction, KafkaProducer.commitTransaction]

@[simp] theorem commit_open (lsn endLsn : UInt64) :
    onCommit o lsn endLsn (state map true k (some buf) c ap) =
      if o.sendLsn then
        if o.commitTransaction then
          state map false k none (c ++ [buf ++ [k.lsnRecord endLsn]]) (ap ++ [lsn])
        else state map false k (some (buf ++ [k.lsnRecord endLsn])) c ap
      else state map false k (some buf) c ap := by
  cases h : o.sendLsn <;> cases hc : o.commitTransaction <;>
    simp [onCommit, Producer.commitTransaction, KafkaProducer.commitTransaction, h, hc]

theorem begin_moves (P : Record → Prop) (s : KafkaReader) :
    Moves P s.producer.inner (onBegin o s).producer.inner := by
  obtain ⟨map, flag, ⟨k, ⟨pending, c⟩⟩, ap⟩ := s
  cases pending with
  | none =>
    rw [begin_closed]
    cases o.beginTransaction with
    | false => exact .stays _
    | true => exact .begins _ _
  | some buf =>
    cases flag with
    | false =>
      rw [begin_unnoticed]
      exact .stays _
    | true =>
      rw [begin_open]
      cases o.abortTransaction with
      | false => exact .stays _
      | true =>
        cases o.beginTransaction with
        | false => exact .drops _ _
        | true => exact .begins _ _

theorem commit_moves (P : Record → Prop) (s : KafkaReader) (lsn endLsn : UInt64)
    (h : P (s.producer.lsnRecord endLsn)) :
    Moves P s.producer.inner (onCommit o lsn endLsn s).producer.inner := by
  obtain ⟨map, flag, ⟨k, ⟨pending, c⟩⟩, ap⟩ := s
  cases flag with
  | false => exact .stays _
  | true =>
    cases pending with
    | none =>
      rw [commit_closed]
      exact .stays _
    | some buf =>
      rw [commit_open]
      cases o.sendLsn with
      | false => exact .stays _
      | true =>
        cases o.commitTransaction with
        | false => exact .adds _ _ _ h
        | true => exact .commits _ _ _ h

/-- What a step does to the log. A row is added only where it is sent. -/
theorem step_moves (P : Record → Prop) (i : Step) (s s' : KafkaReader) (hs : step i s = some s')
    (hrelation : ∀ rd, action s.relationMap i.event = .relation rd →
      P (s.producer.relationRecord rd.inner))
    (hrow : ∀ event rd, action s.relationMap i.event = .change (.ok (event, rd)) →
      s.currentlyInTransaction = true → i.outcomes.send = true →
        P (s.producer.eventRecord rd.inner event))
    (hlsn : ∀ lsn endLsn, action s.relationMap i.event = .commit lsn endLsn →
      P (s.producer.lsnRecord endLsn)) :
    Moves P s.producer.inner s'.producer.inner := by
  rcases step_cases i s s' hs with
    ⟨_, rfl⟩ | ⟨rd, ha, rfl⟩ | ⟨result, ha, hs⟩ | ⟨_, rfl⟩ | ⟨lsn, endLsn, ha, rfl⟩
  · exact .stays _
  · have hnew := hrelation rd ha
    obtain ⟨map, flag, ⟨k, ⟨pending, c⟩⟩, ap⟩ := s
    cases pending with
    | none =>
      rw [relation_closed]
      exact .stays _
    | some buf =>
      rw [relation_open]
      cases i.outcomes.sendRelation with
      | false => exact .stays _
      | true => exact .adds _ _ _ hnew
  · rcases onChange_cases i.outcomes result s s' hs with
      ⟨_, rfl⟩ | ⟨_, _, rfl⟩ | ⟨hflag, event, rd, rfl, rfl⟩
    · exact .stays _
    · exact .stays _
    · have hnew := hrow event rd ha hflag
      obtain ⟨map, flag, ⟨k, ⟨pending, c⟩⟩, ap⟩ := s
      cases pending with
      | none =>
        rw [send_closed]
        exact .stays _
      | some buf =>
        rw [send_open]
        cases hsend : i.outcomes.send with
        | true => exact .adds _ _ _ (hnew hsend)
        | false =>
          cases i.outcomes.abortTransaction with
          | true => exact .drops _ _
          | false => exact .stays _
  · exact begin_moves i.outcomes P s
  · exact commit_moves i.outcomes P s lsn endLsn (hlsn lsn endLsn ha)

theorem step_topics (i : Step) (s s' : KafkaReader) (hs : step i s = some s') :
    s'.producer.toKafkaTopics = s.producer.toKafkaTopics := by
  rcases step_cases i s s' hs with
    ⟨_, rfl⟩ | ⟨rd, _, rfl⟩ | ⟨result, _, hs⟩ | ⟨_, rfl⟩ | ⟨lsn, endLsn, _, rfl⟩
  · rfl
  · obtain ⟨map, flag, ⟨k, ⟨_ | buf, c⟩⟩, ap⟩ := s
    · rw [relation_closed]
    · rw [relation_open]
  · rcases onChange_cases i.outcomes result s s' hs with
      ⟨_, rfl⟩ | ⟨_, _, rfl⟩ | ⟨_, event, rd, rfl, rfl⟩
    · rfl
    · rfl
    · obtain ⟨map, flag, ⟨k, ⟨_ | buf, c⟩⟩, ap⟩ := s
      · rw [send_closed]
      · rw [send_open]
        split_ifs <;> rfl
  · obtain ⟨map, flag, ⟨k, ⟨_ | buf, c⟩⟩, ap⟩ := s
    · rw [begin_closed]
    · cases flag with
      | false => rw [begin_unnoticed]
      | true => rw [begin_open]
  · obtain ⟨map, flag, ⟨k, ⟨_ | buf, c⟩⟩, ap⟩ := s
    · cases flag with
      | false => rfl
      | true => rw [commit_closed]
    · cases flag with
      | false => rfl
      | true =>
        rw [commit_open]
        split_ifs <;> rfl

theorem close_committed (s : KafkaReader) :
    committedTxs (close o s) = committedTxs s ∧ (close o s).applied = s.applied := by
  obtain ⟨map, flag, ⟨k, ⟨pending, c⟩⟩, ap⟩ := s
  cases flag with
  | false => exact ⟨rfl, rfl⟩
  | true =>
    cases pending <;> cases h : o.abortTransaction <;>
      simp [close, committedTxs, Producer.abortTransaction, KafkaProducer.abortTransaction, h]

end CDC.KafkaLoop
