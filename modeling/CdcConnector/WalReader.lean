import CdcConnector.PartialRun
import CdcConnector.ProducerModel
import CdcConnector.RowDecoder

/-!
# The replication loop

One step of `start_wal_input` processes one replication event. A step that
panics halts the reader. The relation map follows the stream alone; the
transaction flag and the producer also depend on which calls fail.
-/

set_option autoImplicit false

namespace CDC.WalReader
open CDC.Fallible CDC.Event CDC.Decoder CDC.RelationDecoder CDC.RowDecoder CDC.ProducerModel
open CDC.PartialRun

inductive ReplicationEvent where
  | xlogData (data : Bytes)
  | begin
  | commit (lsn endLsn : UInt64)
  | keepAlive
  | message
  | other
  deriving DecidableEq

structure Reader (P : Type) where
  relationMap : RelationMap
  currentlyInTransaction : Bool
  producer : P
  /-- The arguments of `update_applied_lsn`, oldest first. -/
  applied : List UInt64

variable {P : Type} [Producer P]

def Reader.init (producer : P) : Reader P := ⟨fun _ => none, false, producer, []⟩

def sendToProducer (o : Outcomes) (eventRes : Except DecoderError (ChangeEvent × RelationData))
    (s : Reader P) : Reader P :=
  match eventRes with
  | .ok (event, relation) =>
    let (producer, sent) := Producer.send o relation.inner event s.producer
    if sent then { s with producer := producer }
    else
      { s with
        producer := (Producer.abortTransaction o producer).1
        currentlyInTransaction := false }
  | .error _ => s

/-- A panic halts, a returned error does not. -/
def settle {α : Type} : Decoded α → Option (Except DecoderError α)
  | .ok a => some (.ok a)
  | .error (.error e) => some (.error e)
  | .error .panic => none

/-- The three row arms differ in their decoder only. -/
def rowParser (tag : UInt8) :
    Option (Bytes → RelationMap → Decoded (ChangeEvent × RelationData)) :=
  if tag = tagI then some Insert.parse
  else if tag = tagD then some Delete.parse
  else if tag = tagU then some Update.parse
  else none

def onRelationMessage (o : Outcomes) (relation : RelationData) (s : Reader P) : Reader P :=
  { s with
    producer := (Producer.onRelation o relation.inner s.producer).1
    relationMap := Function.update s.relationMap relation.inner.relationOid (some relation) }

def onXLogData (o : Outcomes) (data : Bytes) (s : Reader P) : Option (Reader P) :=
  match data with
  | [] => none
  | tag::_ =>
    if tag = tagR then
      match settle (RelationDecoder.parse data) with
      | some (.ok relation) => some (onRelationMessage o relation s)
      | some (.error _) => some s
      | none => none
    else
      match rowParser tag with
      | some parse =>
        if s.currentlyInTransaction then
          (settle (parse data s.relationMap)).map (fun r => sendToProducer o r s)
        else some s
      | none => some s

def onBegin (o : Outcomes) (s : Reader P) : Reader P :=
  let s :=
    if s.currentlyInTransaction then
      { s with producer := (Producer.abortTransaction o s.producer).1 }
    else { s with currentlyInTransaction := true }
  { s with producer := (Producer.startTransaction o s.producer).1 }

def onCommit (o : Outcomes) (lsn endLsn : UInt64) (s : Reader P) : Reader P :=
  if s.currentlyInTransaction then
    let (producer, ok) := Producer.commitTransaction o endLsn s.producer
    { s with
      currentlyInTransaction := false
      producer := producer
      applied := if ok then s.applied ++ [lsn] else s.applied }
  else s

structure Step where
  event : ReplicationEvent
  outcomes : Outcomes
  deriving DecidableEq

def step (i : Step) (s : Reader P) : Option (Reader P) :=
  match i.event with
  | .xlogData data => onXLogData i.outcomes data s
  | .begin => some (onBegin i.outcomes s)
  | .commit lsn endLsn => some (onCommit i.outcomes lsn endLsn s)
  | .keepAlive => some s
  | .message => some s
  | .other => some s

def close (o : Outcomes) (s : Reader P) : Reader P :=
  if s.currentlyInTransaction then
    { s with producer := (Producer.abortTransaction o s.producer).1 }
  else s

/-- What an event asks of the reader, given the relations it knows. -/
inductive Action where
  | halt
  | skip
  | relation (relation : RelationData)
  | change (result : Decoded (ChangeEvent × RelationData))
  | begin
  | commit (lsn endLsn : UInt64)

def action (relationMap : RelationMap) : ReplicationEvent → Action
  | .xlogData [] => .halt
  | .xlogData (tag::rest) =>
    if tag = tagR then
      match settle (RelationDecoder.parse (tag::rest)) with
      | some (.ok relation) => .relation relation
      | some (.error _) => .skip
      | none => .halt
    else
      match rowParser tag with
      | some parse => .change (parse (tag::rest) relationMap)
      | none => .skip
  | .begin => .begin
  | .commit lsn endLsn => .commit lsn endLsn
  | .keepAlive => .skip
  | .message => .skip
  | .other => .skip

def onChange (o : Outcomes) (result : Decoded (ChangeEvent × RelationData)) (s : Reader P) :
    Option (Reader P) :=
  if s.currentlyInTransaction then (settle result).map (fun r => sendToProducer o r s) else some s

def perform (o : Outcomes) (s : Reader P) : Action → Option (Reader P)
  | .halt => none
  | .skip => some s
  | .relation relation => some (onRelationMessage o relation s)
  | .change result => onChange o result s
  | .begin => some (onBegin o s)
  | .commit lsn endLsn => some (onCommit o lsn endLsn s)

theorem action_commit {map : RelationMap} {event : ReplicationEvent} {lsn endLsn : UInt64}
    (h : action map event = .commit lsn endLsn) : event = .commit lsn endLsn := by
  cases event with
  | xlogData data =>
    cases data with
    | nil => cases h
    | cons tag rest =>
      simp only [action] at h
      split at h <;> split at h <;> cases h
  | commit l e => cases h; rfl
  | begin => cases h
  | keepAlive => cases h
  | message => cases h
  | other => cases h

theorem step_eq (i : Step) (s : Reader P) :
    step i s = perform i.outcomes s (action s.relationMap i.event) := by
  obtain ⟨event, o⟩ := i
  cases event with
  | xlogData data =>
    cases data with
    | nil => rfl
    | cons tag rest =>
      simp only [step, onXLogData, action]
      by_cases htag : tag = tagR
      · simp only [if_pos htag]
        split <;> rfl
      · simp only [if_neg htag]
        split <;> rfl
  | begin => rfl
  | commit lsn endLsn => rfl
  | keepAlive => rfl
  | message => rfl
  | other => rfl

/-- A step that does not halt does one of five things. -/
theorem step_cases (i : Step) (s s' : Reader P) (h : step i s = some s') :
    (action s.relationMap i.event = .skip ∧ s' = s) ∨
      (∃ rd, action s.relationMap i.event = .relation rd ∧
        s' = onRelationMessage i.outcomes rd s) ∨
      (∃ result, action s.relationMap i.event = .change result ∧
        onChange i.outcomes result s = some s') ∨
      (action s.relationMap i.event = .begin ∧ s' = onBegin i.outcomes s) ∨
      (∃ lsn endLsn, action s.relationMap i.event = .commit lsn endLsn ∧
        s' = onCommit i.outcomes lsn endLsn s) := by
  rw [step_eq] at h
  cases ha : action s.relationMap i.event with
  | halt =>
    rw [ha] at h
    cases h
  | skip =>
    rw [ha] at h
    cases h
    exact Or.inl ⟨rfl, rfl⟩
  | relation rd =>
    rw [ha] at h
    cases h
    exact Or.inr (Or.inl ⟨rd, rfl, rfl⟩)
  | change result =>
    rw [ha] at h
    exact Or.inr (Or.inr (Or.inl ⟨result, rfl, h⟩))
  | begin =>
    rw [ha] at h
    cases h
    exact Or.inr (Or.inr (Or.inr (Or.inl ⟨rfl, rfl⟩)))
  | commit lsn endLsn =>
    rw [ha] at h
    cases h
    exact Or.inr (Or.inr (Or.inr (Or.inr ⟨lsn, endLsn, rfl, rfl⟩)))

theorem onChange_cases (o : Outcomes) (result : Decoded (ChangeEvent × RelationData))
    (s s' : Reader P) (h : onChange o result s = some s') :
    (s.currentlyInTransaction = false ∧ s' = s) ∨
      (s.currentlyInTransaction = true ∧ (∃ e, result = .error (.error e)) ∧ s' = s) ∨
      (s.currentlyInTransaction = true ∧ ∃ event rd, result = .ok (event, rd) ∧
        s' = sendToProducer o (.ok (event, rd)) s) := by
  unfold onChange at h
  by_cases hflag : s.currentlyInTransaction = true
  · rw [if_pos hflag] at h
    cases result with
    | ok r =>
      cases h
      exact Or.inr (Or.inr ⟨hflag, r.1, r.2, rfl, rfl⟩)
    | error x =>
      cases x with
      | panic => cases h
      | error e =>
        cases h
        exact Or.inr (Or.inl ⟨hflag, ⟨e, rfl⟩, rfl⟩)
  · rw [if_neg hflag] at h
    cases h
    exact Or.inl ⟨Bool.eq_false_of_not_eq_true hflag, rfl⟩

section Simulation
variable {Q : Type} [Producer Q]

structure Simulates (f : P → Q) : Prop where
  startTransaction : ∀ o p,
    Producer.startTransaction o (f p) = Prod.map f id (Producer.startTransaction o p)
  send : ∀ o relation event p,
    Producer.send o relation event (f p) = Prod.map f id (Producer.send o relation event p)
  onRelation : ∀ o relation p,
    Producer.onRelation o relation (f p) = Prod.map f id (Producer.onRelation o relation p)
  commitTransaction : ∀ o lsn p,
    Producer.commitTransaction o lsn (f p) = Prod.map f id (Producer.commitTransaction o lsn p)
  abortTransaction : ∀ o p,
    Producer.abortTransaction o (f p) = Prod.map f id (Producer.abortTransaction o p)

def Reader.map (f : P → Q) (s : Reader P) : Reader Q :=
  ⟨s.relationMap, s.currentlyInTransaction, f s.producer, s.applied⟩

theorem sendToProducer_map {f : P → Q} (hf : Simulates f) (o : Outcomes)
    (r : Except DecoderError (ChangeEvent × RelationData)) (s : Reader P) :
    sendToProducer o r (s.map f) = (sendToProducer o r s).map f := by
  cases r with
  | error e => rfl
  | ok r =>
    simp only [sendToProducer, Reader.map, hf.send, hf.abortTransaction, Prod.map, id]
    split <;> rfl

theorem onBegin_map {f : P → Q} (hf : Simulates f) (o : Outcomes) (s : Reader P) :
    onBegin o (s.map f) = (onBegin o s).map f := by
  unfold onBegin Reader.map
  dsimp only
  split <;> simp only [hf.startTransaction, hf.abortTransaction, Prod.map]

theorem onCommit_map {f : P → Q} (hf : Simulates f) (o : Outcomes) (lsn endLsn : UInt64)
    (s : Reader P) : onCommit o lsn endLsn (s.map f) = (onCommit o lsn endLsn s).map f := by
  unfold onCommit Reader.map
  dsimp only
  split
  · simp only [hf.commitTransaction, Prod.map, id]
  · rfl

/-- The reader sees of its producer only which calls succeed. -/
theorem step_map {f : P → Q} (hf : Simulates f) (i : Step) (s : Reader P) :
    step i (s.map f) = (step i s).map (Reader.map f) := by
  rw [step_eq, step_eq, show (s.map f).relationMap = s.relationMap from rfl]
  cases action s.relationMap i.event with
  | halt => rfl
  | skip => rfl
  | relation rd => simp [perform, onRelationMessage, Reader.map, hf.onRelation]
  | change result =>
    simp only [perform, onChange, show (s.map f).currentlyInTransaction =
      s.currentlyInTransaction from rfl]
    split
    · rw [Option.map_map]
      exact Option.map_congr (fun r _ => sendToProducer_map hf i.outcomes r s)
    · rfl
  | begin => exact congrArg some (onBegin_map hf i.outcomes s)
  | commit lsn endLsn => exact congrArg some (onCommit_map hf i.outcomes lsn endLsn s)

end Simulation

end CDC.WalReader
