import CdcConnector.BigEndian
import CdcConnector.Compaction
import CdcConnector.ProducerLog
import CdcConnector.RelationAvro

/-!
# The LSN topic

A producer that starts reads the LSN topic until nothing comes for a while and
takes the last LSN it saw. All records of the topic have one key, so whatever
the broker has compacted away, the last LSN committed is the last one read.
-/

set_option autoImplicit false

namespace CDC.LsnTopic
open CDC.Event CDC.Decoder CDC.SerdeAvro CDC.EventAvro CDC.RelationAvro CDC.ProducerModel
open CDC.Compaction CDC.ProducerLog

section Wire
variable {SerError : Type} (lib : Library SerError)

def payloadBytes : Payload → Option Bytes
  | .event _ event => (intoAvro lib event).toOption
  | .relation relation => (relationIntoAvro lib relation).toOption
  | .lsn lsn => some (BigEndian.toBytes 8 lsn.toNat)

end Wire

inductive Poll where
  | message (payload : Option Bytes)
  | kafkaError
  | closed
  | timeout
  deriving DecidableEq

/-- No result while the loop still waits. -/
def readLsnFrom (latestLsn : UInt64) : List Poll → Option (Except Unit UInt64)
  | [] => none
  | .message (some lsnBytes)::polls =>
    if lsnBytes.length = 8 then readLsnFrom (UInt64.ofNat (BigEndian.ofBytes lsnBytes)) polls
    else readLsnFrom latestLsn polls
  | .message none::polls => readLsnFrom latestLsn polls
  | .kafkaError::_ => some (.error ())
  | .closed::_ => some (.ok latestLsn)
  | .timeout::_ => some (.ok latestLsn)

def readLsn (polls : List Poll) : Option (Except Unit UInt64) := readLsnFrom 0 polls

/-- The last LSN committed, zero before the first. -/
def checkpoint (txs : List (List Record)) : UInt64 := (lsnsOf txs.flatten).getLast?.getD 0

def keyed (r : Record) : Bytes × Payload := (r.key, r.payload)

/-- The polls bring everything the broker kept of the LSN topic before the
first silence. -/
def WholeRead {SerError : Type} (lib : Library SerError) (topic : String)
    (txs : List (List Record)) (polls : List Poll) : Prop :=
  ∃ kept rest, Compacts ((topicRecords (topic ++ ".lsn") txs).map keyed) kept ∧
    polls = kept.map (fun r => Poll.message (payloadBytes lib r.2)) ++ Poll.timeout :: rest

theorem readLsnFrom_lsns (lsns : List UInt64) (latestLsn : UInt64) (rest : List Poll) :
    readLsnFrom latestLsn
        (lsns.map (fun lsn => Poll.message (some (BigEndian.toBytes 8 lsn.toNat))) ++
          Poll.timeout :: rest) = some (.ok (lsns.getLast?.getD latestLsn)) := by
  induction lsns generalizing latestLsn with
  | nil => rfl
  | cons lsn lsns ih =>
    have hread : UInt64.ofNat (BigEndian.ofBytes (BigEndian.toBytes 8 lsn.toNat)) = lsn := by
      rw [BigEndian.ofBytes_toBytes 8 lsn.toNat lsn.toNat_lt]
      exact UInt64.ofNat_toNat
    rw [List.map_cons, List.cons_append, readLsnFrom, if_pos (BigEndian.toBytes_length 8 _), hread,
      ih lsn, List.getLast?_cons]
    rfl

theorem whole_read {SerError : Type} (lib : Library SerError) (topic key : String)
    (txs : List (List Record)) (h : ∀ r ∈ txs.flatten, Written (KafkaTopics.new topic key) r)
    (polls : List Poll) (hread : WholeRead lib topic txs polls) :
    readLsn polls = some (.ok (checkpoint txs)) := by
  obtain ⟨kept, rest, hkept, rfl⟩ := hread
  have hfull : (topicRecords (topic ++ ".lsn") txs).map keyed =
      (lsnsOf txs.flatten).map (fun lsn => (utf8Bytes "lsn", Payload.lsn lsn)) := by
    rw [topicRecords, lsn_topic_records topic key _ h, List.map_map]
    rfl
  rw [hfull] at hkept
  obtain ⟨lsns, _, rfl⟩ := List.sublist_map_iff.mp hkept.sublist
  have hlast := last_of_single_key hkept (utf8Bytes "lsn") (by
    intro r hr
    obtain ⟨lsn, _, rfl⟩ := List.mem_map.mp hr
    rfl)
  rw [List.getLast?_map, List.getLast?_map] at hlast
  have hsame : lsns.getLast? = (lsnsOf txs.flatten).getLast? := by
    cases ha : lsns.getLast? <;> cases hb : (lsnsOf txs.flatten).getLast? <;>
      simp [ha, hb] at hlast ⊢
    exact hlast
  rw [List.map_map, checkpoint, ← hsame]
  exact readLsnFrom_lsns lsns 0 rest

end CDC.LsnTopic
