import CdcConnector.Calendar
import CdcConnector.JsonText
import CdcConnector.SinkStatements
import CdcConnector.TupleGrammar

/-!
# Timestamps at the sinks

The Postgres sink adds a timestamp to its epoch as a date and time, the JSON
image moves it to the Unix epoch as an integer first. Whether that sum is
checked for overflow is up to the build. Each of the two says what it makes of
any timestamp the decoder reads.
-/

set_option autoImplicit false

namespace CDC.JsonValue
open CDC.Fallible CDC.Event CDC.Calendar CDC.SinkStatements CDC.Decoder CDC.TupleDecoder
open CDC.TupleGrammar CDC.JsonText

variable {ε : Type}

def Fits (n : ℤ) : Prop := -2^63 ≤ n ∧ n < 2^63

instance (n : ℤ) : Decidable (Fits n) := inferInstanceAs (Decidable (_ ∧ _))

/-- An overflow panics where it is checked, and wraps where it is not. -/
def addI64 (overflowChecks : Bool) (a b : Int64) : Outcome ε Int64 :=
  if overflowChecks = true ∧ ¬ Fits (a.toInt + b.toInt) then panicked else .ok (a + b)

def pgEpochToUnixMicros : Int64 := 946684800000000

/-- An instant the calendar does not cover has no text. -/
def timestampValue : Option DateTime → Value
  | some dt => .string dt.format
  | none => .null

def toJsonValue (overflowChecks : Bool) : PgValue → Outcome ε Value
  | .null => .ok .null
  | .text s => .ok (.string s)
  | .int4 n => .ok (.number n.toInt)
  | .int8 n => .ok (.number n.toInt)
  | .bool b => .ok (.bool b)
  | .timestamp t => do
    let micros ← addI64 overflowChecks t pgEpochToUnixMicros
    return timestampValue (DateTime.fromTimestampMicros micros.toInt)
  | .toasted => .ok .null

def pgEpoch : DateTime := ⟨946684800000000, by decide⟩

/-- What `to_sql` and `to_sql_checked` hand on for a timestamp. -/
def toDateTime (t : Int64) : Outcome String DateTime := pgEpoch.add t.toInt

theorem addI64_fits (overflowChecks : Bool) (a b : Int64) (h : Fits (a.toInt + b.toInt)) :
    (addI64 overflowChecks a b : Outcome ε Int64) = .ok (a + b) ∧ (a + b).toInt = a.toInt + b.toInt := by
  constructor
  · rw [addI64, if_neg (fun hover => hover.2 h)]
  · rw [Int64.toInt_add]
    exact Int.bmod_eq_of_le (by simpa using h.1) (by simpa using h.2)

theorem addI64_overflow (a b : Int64) (h : ¬ Fits (a.toInt + b.toInt)) :
    (addI64 true a b : Outcome ε Int64) = panicked :=
  if_pos ⟨rfl, h⟩

theorem representable_iff (t : Int64) :
    representable t = true ↔ InRange (t.toInt + 946684800000000) := by
  rw [inRange_iff, representable, Bool.and_eq_true, decide_eq_true_eq, decide_eq_true_eq]
  simp only [minMicros, maxMicros]
  omega

theorem toSql_timestamp (t : Int64) :
    toSql (.timestamp t) = (toDateTime t >>= fun _ => .ok (.timestamp t)) := by
  have hcomm : pgEpoch.micros + t.toInt = t.toInt + 946684800000000 := Int.add_comm _ _
  by_cases h : InRange (t.toInt + 946684800000000)
  · have hin : toDateTime t = .ok ⟨pgEpoch.micros + t.toInt, by rwa [hcomm]⟩ :=
      DateTime.add_in pgEpoch t.toInt _
    rw [hin, ok_bind, toSql, if_pos ((representable_iff t).mpr h)]
  · have hout : toDateTime t = panicked := DateTime.add_out pgEpoch t.toInt (by rwa [hcomm])
    rw [hout, toSql, if_neg (fun hr => h ((representable_iff t).mp hr))]
    rfl

theorem toJsonValue_in (overflowChecks : Bool) (t : Int64) (h : InRange (t.toInt + 946684800000000)) :
    (toJsonValue overflowChecks (.timestamp t) : Outcome ε Value) =
      .ok (.string (DateTime.format ⟨t.toInt + 946684800000000, h⟩)) := by
  have hrange := (inRange_iff _).mp h
  have hepoch : pgEpochToUnixMicros.toInt = 946684800000000 := by decide
  obtain ⟨hadd, hsum⟩ := @addI64_fits ε overflowChecks t pgEpochToUnixMicros
    (by rw [hepoch]; exact ⟨by omega, by omega⟩)
  rw [hepoch] at hsum
  rw [toJsonValue, hadd, ok_bind, hsum, DateTime.fromTimestampMicros_in _ h]
  rfl

theorem toJsonValue_out (overflowChecks : Bool) (t : Int64)
    (h : ¬ InRange (t.toInt + 946684800000000)) (hfits : Fits (t.toInt + 946684800000000)) :
    (toJsonValue overflowChecks (.timestamp t) : Outcome ε Value) = .ok .null := by
  have hepoch : pgEpochToUnixMicros.toInt = 946684800000000 := by decide
  obtain ⟨hadd, hsum⟩ := @addI64_fits ε overflowChecks t pgEpochToUnixMicros (by rwa [hepoch])
  rw [hepoch] at hsum
  rw [toJsonValue, hadd, ok_bind, hsum, DateTime.fromTimestampMicros_out _ h]
  rfl

theorem toJsonValue_overflow (t : Int64) (h : ¬ Fits (t.toInt + 946684800000000)) :
    (toJsonValue true (.timestamp t) : Outcome ε Value) = panicked := by
  have hepoch : pgEpochToUnixMicros.toInt = 946684800000000 := by decide
  have hadd := @addI64_overflow ε t pgEpochToUnixMicros (by rwa [hepoch])
  rw [toJsonValue, hadd]
  rfl

theorem parseValue_timestamp (t : Int64) :
    parseValue (Item.binary (.timestamp t)).bytes (⟨false, "at", .timestamp⟩ : Field) false =
      .ok (.timestamp t, 13) := by
  have hpayload : (Datum.timestamp t).payload.length = 8 := BigEndian.toBytes_length 8 _
  have hsize : (Item.binary (.timestamp t)).bytes.length = 13 := by
    rw [Item.bytes, List.length_cons, List.length_append, hpayload, BigEndian.toBytes_length]
  have hread := parseValue_item (⟨false, "at", .timestamp⟩ : Field) false (.binary (.timestamp t)) []
    ⟨by rw [hpayload]; decide, rfl⟩ (fun h => by cases h)
  rw [List.append_nil, hsize] at hread
  exact hread

/-- Every timestamp is read. In the years of the calendar it passes both sinks
unchanged; outside them, short of an overflow, its image is null. -/
theorem timestamps_at_sinks (t : Int64) :
    (∃ (data : Bytes) (field : Field) (size : ℕ),
      parseValue data field false = .ok (.timestamp t, size)) ∧
    (InRange (t.toInt + 946684800000000) →
      (∃ dt, toDateTime t = .ok dt ∧ dt.micros = t.toInt + 946684800000000) ∧
      toSql (.timestamp t) = .ok (.timestamp t) ∧ Fits (t.toInt + 946684800000000) ∧
      ∀ overflowChecks, ∃ dt : DateTime, dt.micros = t.toInt + 946684800000000 ∧
        (toJsonValue overflowChecks (.timestamp t) : Outcome ε Value) = .ok (.string dt.format)) ∧
    (¬ InRange (t.toInt + 946684800000000) → Fits (t.toInt + 946684800000000) →
      ∀ overflowChecks, (toJsonValue overflowChecks (.timestamp t) : Outcome ε Value) = .ok .null) := by
  refine ⟨⟨_, _, _, parseValue_timestamp t⟩, ?_, ?_⟩
  · intro h
    have hcomm : pgEpoch.micros + t.toInt = t.toInt + 946684800000000 := Int.add_comm _ _
    have hrange := (inRange_iff _).mp h
    have hin : toDateTime t = .ok ⟨pgEpoch.micros + t.toInt, by rwa [hcomm]⟩ :=
      DateTime.add_in pgEpoch t.toInt _
    refine ⟨⟨_, hin, hcomm⟩, ?_, ⟨by omega, by omega⟩, ?_⟩
    · rw [toSql_timestamp, hin, ok_bind]
    · intro overflowChecks
      exact ⟨_, rfl, toJsonValue_in overflowChecks t h⟩
  · intro h hfits overflowChecks
    exact toJsonValue_out overflowChecks t h hfits

/-- Both infinities, and a finite timestamp beyond the calendar. -/
theorem infinity_stops :
    toSql (.timestamp 9223372036854775807) = panicked ∧
      toDateTime 9223372036854775807 = panicked ∧
      (toJsonValue true (.timestamp 9223372036854775807) : Outcome String Value) = panicked ∧
      (toJsonValue false (.timestamp 9223372036854775807) : Outcome String Value) = .ok .null ∧
      toDateTime (-9223372036854775808) = panicked ∧
      (toJsonValue true (.timestamp (-9223372036854775808)) : Outcome String Value) = .ok .null ∧
      (toJsonValue true (.timestamp 9000000000000000000) : Outcome String Value) = .ok .null := by
  decide

theorem epoch_passes :
    toSql (.timestamp 0) = .ok (.timestamp 0) ∧
      ∀ overflowChecks, ∃ dt : DateTime, dt.micros = 946684800000000 ∧
        (toJsonValue overflowChecks (.timestamp 0) : Outcome String Value) =
          .ok (.string dt.format) := by
  obtain ⟨_, hin, _⟩ := @timestamps_at_sinks String 0
  obtain ⟨_, hsql, _, himage⟩ := hin (by decide)
  exact ⟨hsql, himage⟩

end CDC.JsonValue
