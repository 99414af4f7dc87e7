import CdcConnector.PartialRun
import CdcConnector.SinkModel

/-!
# The consumer loop and its offset

The loop takes one message of a partition after the other. It commits the
offset of a message after the sink accepted it; a message that does not
decode, or that the sink refuses, is passed over. A restart goes back to the
committed offset. No message is lost exactly as long as none that was passed
over is overtaken by a commit.
-/

set_option autoImplicit false

namespace CDC.KafkaConsumer
open CDC.Fallible CDC.Event CDC.SinkModel CDC.PartialRun

/-- The two Avro decoders are the client's. -/
structure KafkaClient where
  topic : String
  eventFromAvro : Bytes → Option ChangeEvent
  relationFromAvro : Bytes → Option Relation

structure Message where
  offset : ℕ
  payload : Option Bytes
  deriving DecidableEq

/-- Offsets grow and may have gaps, where transaction markers stand. -/
structure Partition where
  topic : String
  messages : List Message
  increasing : messages.Pairwise (fun m n => m.offset < n.offset)

def Partition.next (p : Partition) (position : ℕ) : Option Message :=
  p.messages.find? (fun m => position ≤ m.offset)

def stripPrefix (s pre : String) : Option (List Char) :=
  if pre.toList.isPrefixOf s.toList then some (s.toList.drop pre.toList.length) else none

structure Session (S : Type) where
  /-- The running process, none after a panic. -/
  sink : Option S
  position : ℕ
  /-- Messages below this offset are not read again; it starts at zero. -/
  committed : ℕ
  /-- The offsets handed to the loop and those `on_event` accepted, oldest
  first, over all restarts. -/
  delivered : List ℕ
  succeeded : List ℕ

section Offsets
variable {S : Type}

def start (sink : S) : Session S := ⟨some sink, 0, 0, [], []⟩

/-- Every message below the committed offset was accepted by the sink. -/
def NoneLost (p : Partition) (s : Session S) : Prop :=
  ∀ m ∈ p.messages, m.offset < s.committed → m.offset ∈ s.succeeded

/-- Whatever is below the position was handed to the loop. -/
structure Read (p : Partition) (s : Session S) : Prop where
  none_lost : NoneLost p s
  behind : s.committed ≤ s.position
  reached : ∀ m ∈ p.messages, m.offset < s.position → m.offset ∈ s.delivered
  known : ∀ o ∈ s.delivered, ∃ m ∈ p.messages, m.offset = o

theorem next_least (p : Partition) (position : ℕ) (m : Message) (h : p.next position = some m) :
    m ∈ p.messages ∧ position ≤ m.offset ∧
      ∀ n ∈ p.messages, position ≤ n.offset → m.offset ≤ n.offset := by
  obtain ⟨hm, pre, post, heq, hpre⟩ := List.find?_eq_some_iff_append.mp h
  refine ⟨by rw [heq]; simp, by simpa using hm, fun n hn hle => ?_⟩
  have hgrow := p.increasing
  rw [heq, List.pairwise_append] at hgrow
  rw [heq, List.mem_append, List.mem_cons] at hn
  rcases hn with hn | rfl | hn
  · have := hpre n hn
    simp only [Bool.not_eq_true', decide_eq_false_iff_not] at this
    exact absurd hle this
  · exact Nat.le_refl _
  · exact Nat.le_of_lt ((List.pairwise_cons.mp hgrow.2.1).1 n hn)

theorem read_start (p : Partition) (sink : S) : Read p (start sink) where
  none_lost _ _ h := absurd h (Nat.not_lt_zero _)
  behind := Nat.le_refl 0
  reached _ _ h := absurd h (Nat.not_lt_zero _)
  known _ h := nomatch h

theorem reached_next (p : Partition) (s : Session S) (h : Read p s) (m : Message)
    (hm : p.next s.position = some m) :
    (∀ n ∈ p.messages, n.offset < m.offset + 1 → n.offset ∈ s.delivered ++ [m.offset]) ∧
      ∀ o ∈ s.delivered ++ [m.offset], ∃ n ∈ p.messages, n.offset = o := by
  obtain ⟨hmem, _, hleast⟩ := next_least p s.position m hm
  constructor
  · intro n hn hlt
    by_cases hbelow : n.offset < s.position
    · exact List.mem_append_left _ (h.reached n hn hbelow)
    · have hle := hleast n hn (by omega)
      have heq : n.offset = m.offset := by omega
      rw [heq]
      simp
  · intro o ho
    rcases List.mem_append.mp ho with ho | ho
    · exact h.known o ho
    · exact ⟨m, hmem, (List.mem_singleton.mp ho).symm⟩

end Offsets

section Loop
variable {S : Type} [KafkaSink S]

def logged (r : S × Answer) : Option (S × Bool) :=
  match r with
  | (sink, .ok ()) => some (sink, true)
  | (sink, .error (.error _)) => some (sink, false)
  | (_, .error .panic) => none

/-- The new sink, and whether the message's offset is to be committed. -/
def receive (client : KafkaClient) (topic : String) (payload : Option Bytes) (sink : S) :
    Option (S × Bool) :=
  match payload with
  | none => some (sink, false)
  | some view =>
    match stripPrefix topic client.topic with
    | none => some (sink, false)
    | some rest =>
      if ".event".toList.isPrefixOf rest then
        match client.eventFromAvro view with
        | some event => logged (KafkaSink.onEvent event sink)
        | none => some (sink, false)
      else if rest = ".relations".toList then
        match client.relationFromAvro view with
        | some relation =>
          (logged (KafkaSink.onRelation relation sink)).map (fun r => (r.1, false))
        | none => some (sink, false)
      else some (sink, false)

inductive Input (S : Type) where
  | poll (commitOk : Bool)
  | kafkaError
  | restart (sink : S)

def consume (client : KafkaClient) (topic : String) (commitOk : Bool) (m : Message) (sink : S)
    (s : Session S) : Session S :=
  match receive client topic m.payload sink with
  | some (sink, ok) =>
    { sink := some sink
      position := m.offset + 1
      committed := if ok && commitOk then m.offset + 1 else s.committed
      delivered := s.delivered ++ [m.offset]
      succeeded := if ok then s.succeeded ++ [m.offset] else s.succeeded }
  | none => { s with sink := none, position := m.offset + 1, delivered := s.delivered ++ [m.offset] }

def step (client : KafkaClient) (p : Partition) (i : Input S) (s : Session S) :
    Option (Session S) :=
  match i with
  | .poll commitOk =>
    match s.sink, p.next s.position with
    | some sink, some m => some (consume client p.topic commitOk m sink s)
    | _, _ => some s
  | .kafkaError => some s
  | .restart sink => some { s with sink := some sink, position := s.committed }

/-- A message that is accepted and committed in this step overtakes no message
that was handed to the loop and not accepted so far. -/
def overtakesNone (client : KafkaClient) (p : Partition) (s : Session S) (i : Input S) : Bool :=
  match i, s.sink, p.next s.position with
  | .poll true, some sink, some m =>
    match receive client p.topic m.payload sink with
    | some (_, true) =>
      s.delivered.all (fun o => !decide (o < m.offset) || decide (o ∈ s.succeeded))
    | _ => true
  | _, _, _ => true

theorem consume_read (client : KafkaClient) (p : Partition) (commitOk : Bool) (m : Message)
    (sink : S) (s : Session S) (h : Read p s) (hm : p.next s.position = some m)
    (hover : ∀ sink', receive client p.topic m.payload sink = some (sink', true) →
      commitOk = true → ∀ o ∈ s.delivered, o < m.offset → o ∈ s.succeeded) :
    Read p (consume client p.topic commitOk m sink s) := by
  obtain ⟨hreached, hknown⟩ := reached_next p s h m hm
  have hpos := (next_least p s.position m hm).2.1
  have hbehind := h.behind
  unfold consume
  split
  · next sink' ok hr =>
    cases ok with
    | false => exact ⟨h.none_lost, by simp; omega, hreached, hknown⟩
    | true =>
      cases commitOk with
      | false =>
        refine ⟨fun n hn hlt => ?_, by simp; omega, hreached, hknown⟩
        exact List.mem_append_left _ (h.none_lost n hn hlt)
      | true =>
        refine ⟨fun n hn hlt => ?_, by simp, hreached, hknown⟩
        simp only [Bool.and_self, if_true] at hlt ⊢
        rcases List.mem_append.mp (hreached n hn hlt) with hdel | hlast
        · by_cases heq : n.offset = m.offset
          · rw [heq]
            simp
          · exact List.mem_append_left _ (hover sink' hr rfl n.offset hdel (by omega))
        · exact List.mem_append_right _ hlast
  · exact ⟨h.none_lost, by dsimp only; omega, hreached, hknown⟩

theorem read_step (client : KafkaClient) (p : Partition) (i : Input S) (s s' : Session S)
    (h : Read p s) (hover : overtakesNone client p s i = true) (hs : step client p i s = some s') :
    Read p s' := by
  cases i with
  | kafkaError =>
    cases hs
    exact h
  | restart sink =>
    cases hs
    exact ⟨h.none_lost, Nat.le_refl _,
      fun m hm hlt => h.reached m hm (Nat.lt_of_lt_of_le hlt h.behind), h.known⟩
  | poll commitOk =>
    simp only [step] at hs
    split at hs
    · next sink m hsink hm =>
      cases hs
      refine consume_read client p commitOk m sink s h hm ?_
      rintro sink' hr rfl o ho hlt
      simp only [overtakesNone, hsink, hm, hr, List.all_eq_true] at hover
      simpa [hlt] using hover o ho
    · cases hs
      exact h

theorem none_lost_overtakes (client : KafkaClient) (p : Partition) (i : Input S)
    (s s' : Session S) (h : Read p s) (hs : step client p i s = some s') (hn : NoneLost p s') :
    overtakesNone client p s i = true := by
  unfold overtakesNone
  split
  · next sink m hsink hm =>
    split
    · next sink' hr =>
      simp only [step, hsink, hm, consume, hr, Option.some.injEq] at hs
      subst hs
      rw [List.all_eq_true]
      intro o ho
      by_cases hlt : o < m.offset
      · obtain ⟨n, hnm, rfl⟩ := h.known o ho
        have hmem := hn n hnm (by simp; omega)
        simp only [if_true, List.mem_append, List.mem_singleton] at hmem
        rcases hmem with hmem | heq
        · simp [hmem]
        · omega
      · simp [hlt]
    · rfl
  · rfl

/-- Over every run of the consumer with any sink, any payloads, any failing
commits and restarts: no message is lost at any point exactly when no commit
overtakes a message that was not accepted. -/
theorem none_lost_iff_overtakes_none (client : KafkaClient) (p : Partition) (sink : S)
    (inputs : List (Input S)) :
    (∀ pre post s, inputs = pre ++ post →
        run (step client p) pre (start sink) = some s → NoneLost p s) ↔
      Meets (step client p) (fun s i => overtakesNone client p s i = true) inputs
        (start sink) := by
  rw [← always_iff_reached]
  exact always_iff_meets (Read p) (NoneLost p) (fun s h => h.none_lost)
    (fun i s t h _ hc hs => read_step client p i s t h hc hs)
    (fun i s t h _ hs hP => none_lost_overtakes client p i s t h hs hP)
    inputs _ (read_start p sink)
    (meets_of_forall inputs (start sink) (fun (_ : Input S) _ => trivial))

end Loop

structure Accepting where
  deriving DecidableEq

instance : KafkaSink Accepting := ⟨fun _ s => (s, .ok ()), fun _ s => (s, .ok ())⟩

def emptyPayloads : KafkaClient where
  topic := "cdc"
  eventFromAvro view := if view = [] then some ⟨.insert [], 1⟩ else none
  relationFromAvro _ := none

def corruptFirst : Partition :=
  ⟨"cdc.events.p.u", [⟨0, some [0]⟩, ⟨1, some []⟩], by simp⟩

theorem corrupt_message_is_lost :
    ∃ s, run (step emptyPayloads corruptFirst) [.poll true, .poll true] (start Accepting.mk) =
        some s ∧ s.committed = 2 ∧ ¬ NoneLost corruptFirst s := by
  refine ⟨_, rfl, by decide, fun h => ?_⟩
  exact absurd (h ⟨0, some [0]⟩ (by simp [corruptFirst]) (by decide)) (by decide)

end CDC.KafkaConsumer
