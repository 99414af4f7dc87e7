import Mathlib.Logic.Function.Basic
import CdcConnector.ProducerRestarts

/-!
# Producers that overlap

Several producer processes may be up at once. Each reads the LSN topic, then takes
over the transactional id, which fences the one that had it before, then asks the
server for the stream, which goes to one process at a time. A process whose
connection the server dropped may still work on what it had received.
-/

set_option autoImplicit false

namespace CDC.ProducerOverlap
open CDC.Event CDC.ProducerModel CDC.TransactionLog CDC.PartialRun CDC.WalReader CDC.SourceStream
open CDC.KafkaLoop CDC.Checkpoint CDC.ProducerLog CDC.LsnTopic CDC.SourceWal CDC.ProducerRestarts

inductive Process where
  | down
  | lsnRead (lsn : UInt64)
  | initialised (lsn : UInt64) (epoch : ℕ)
  | streaming (epoch : ℕ) (r : Running)

namespace Process

def read : Process → Option UInt64
  | .lsnRead lsn => some lsn
  | _ => none

def epoch : Process → Option ℕ
  | .initialised _ epoch => some epoch
  | .streaming epoch _ => some epoch
  | _ => none

def running : Process → Option Running
  | .streaming _ r => some r
  | _ => none

end Process

structure World where
  log : List (List Record)
  /-- Up to here the server takes the stream as applied. -/
  confirmed : UInt64
  /-- How often the transactional id was taken over. -/
  epoch : ℕ
  /-- The process the server streams to. -/
  slot : Option ℕ
  processes : ℕ → Process

inductive Turn where
  | readLsn (p : ℕ) (polls : List Poll)
  | initTransactions (p : ℕ)
  | connect (p : ℕ)
  | replication (p : ℕ) (i : Step)
  | confirm (lsn : UInt64)
  | dropped
  | closed (p : ℕ) (o : Outcomes)
  | crash (p : ℕ)

/-- The broker takes neither records nor commits of a fenced process. -/
def fenced (o : Outcomes) : Outcomes :=
  { o with send := false, sendRelation := false, sendLsn := false, commitTransaction := false }

namespace World

def put (w : World) (p : ℕ) (process : Process) : World :=
  { w with processes := Function.update w.processes p process }

def exit (w : World) (p : ℕ) : World :=
  { w.put p .down with slot := if w.slot = some p then none else w.slot }

def Current (w : World) (p : ℕ) : Prop := (w.processes p).epoch = some w.epoch

instance (w : World) (p : ℕ) : Decidable (w.Current p) := inferInstanceAs (Decidable (_ = _))

/-- The event with what the broker answers this process. -/
def answered (w : World) (p : ℕ) (i : Step) : Step :=
  if w.Current p then i else ⟨i.event, fenced i.outcomes⟩

def logged (w : World) (p : ℕ) (reader : KafkaReader) : List (List Record) :=
  if w.Current p then committedTxs reader else w.log

end World

/-- A start that cannot read the LSN topic or finds the slot taken ends the
process. -/
def turn (k : KafkaTopics) : Turn → World → World
  | .readLsn p polls, w =>
    match w.processes p, readLsn polls with
    | .down, some (.ok lsn) => w.put p (.lsnRead lsn)
    | _, _ => w
  | .initTransactions p, w =>
    match w.processes p with
    | .lsnRead lsn => { w.put p (.initialised lsn (w.epoch + 1)) with epoch := w.epoch + 1 }
    | _ => w
  | .connect p, w =>
    match w.processes p with
    | .initialised lsn epoch =>
      match w.slot with
      | none =>
        { w.put p (.streaming epoch
            ⟨restarted k w.log, max lsn w.confirmed, (Source.init, false)⟩) with slot := some p }
      | some _ => w.exit p
    | _ => w
  | .replication p i, w =>
    match w.processes p with
    | .streaming epoch r =>
      match step (w.answered p i) r.reader with
      | some reader =>
        { w.put p (.streaming epoch
            ⟨reader, r.position, watch r.reader r.seen (w.answered p i)⟩) with
          log := w.logged p reader }
      | none => w.exit p
    | _ => w
  | .confirm lsn, w => { w with confirmed := lsn }
  | .dropped, w => { w with slot := none }
  | .closed p o, w =>
    match w.processes p with
    | .streaming _ r =>
      { w.exit p with log := w.logged p (close o r.reader) }
    | _ => w
  | .crash p, w => w.exit p

def idle : World := ⟨[], 0, 0, none, fun _ => .down⟩

/-- Every process is streamed to from the position it asked for, and the server
takes for applied only what the process it streams to told it. -/
def Given (wal : Wal) (w : World) : Turn → Prop
  | .replication p i => ∀ r ∈ (w.processes p).running,
      wellBracketed r.seen.1 (w.answered p i) = true ∧
        ((r.seen.1.observe (w.answered p i)).complete.map inWal) <+: wal.streamFrom r.position
  | .confirm lsn => lsn ≤ w.confirmed ∨
      ∃ p ∈ w.slot, ∃ r ∈ (w.processes p).running, ∃ l ∈ r.reader.applied, lsn ≤ l
  | _ => True

/-- No process commits after it lost a row, and what it read of the LSN topic
still stands to what is committed when it takes over as it has to. -/
def Kept (Stands : UInt64 → UInt64 → Prop) (w : World) : Turn → Prop
  | .initTransactions p => ∀ lsn ∈ (w.processes p).read, Stands lsn (checkpoint w.log)
  | .replication p i => ∀ r ∈ (w.processes p).running,
      HoldsBack (r.reader, r.seen) (w.answered p i)
  | _ => True

instance (wal : Wal) (w : World) (t : Turn) : Decidable (Given wal w t) :=
  match t with
  | .replication p i => inferInstanceAs (Decidable (∀ r ∈ (w.processes p).running,
      wellBracketed r.seen.1 (w.answered p i) = true ∧
        ((r.seen.1.observe (w.answered p i)).complete.map inWal) <+: wal.streamFrom r.position))
  | .confirm lsn => inferInstanceAs (Decidable (lsn ≤ w.confirmed ∨
      ∃ p ∈ w.slot, ∃ r ∈ (w.processes p).running, ∃ l ∈ r.reader.applied, lsn ≤ l))
  | .readLsn _ _ => isTrue trivial
  | .initTransactions _ => isTrue trivial
  | .connect _ => isTrue trivial
  | .dropped => isTrue trivial
  | .closed _ _ => isTrue trivial
  | .crash _ => isTrue trivial

instance (Stands : UInt64 → UInt64 → Prop) [∀ lsn last, Decidable (Stands lsn last)] (w : World)
    (t : Turn) : Decidable (Kept Stands w t) :=
  match t with
  | .initTransactions p => Option.decidableForallMem (w.processes p).read
  | .replication p i => inferInstanceAs (Decidable (∀ r ∈ (w.processes p).running,
      HoldsBack (r.reader, r.seen) (w.answered p i)))
  | .readLsn _ _ => isTrue trivial
  | .connect _ => isTrue trivial
  | .confirm _ => isTrue trivial
  | .dropped => isTrue trivial
  | .closed _ _ => isTrue trivial
  | .crash _ => isTrue trivial

/-- What a read has to give for the process to start from it. -/
def StandingRead (Stands : UInt64 → UInt64 → Prop) (txs : List (List Record)) (polls : List Poll) :
    Prop :=
  ∀ lsn, readLsn polls = some (.ok lsn) → Stands lsn (checkpoint txs)

def startAt (lsn : UInt64) : Happening :=
  .start [.message (some (BigEndian.toBytes 8 lsn.toNat)), .timeout]

theorem readLsn_at (lsn : UInt64) :
    readLsn [.message (some (BigEndian.toBytes 8 lsn.toNat)), .timeout] = some (.ok lsn) :=
  readLsnFrom_lsns [lsn] 0 []

/-- A fenced process commits nothing, whatever it receives. -/
theorem fenced_keeps (i : Step) (s s' : KafkaReader)
    (hs : step ⟨i.event, fenced i.outcomes⟩ s = some s') : s'.applied = s.applied := by
  refine (step_keeps s s' _ ?_ hs).2
  cases h : i.event <;> simp [commits, fenced]

theorem update_cases {processes : ℕ → Process} {p q : ℕ} {process at_q : Process}
    (h : Function.update processes p process q = at_q) :
    (q = p ∧ process = at_q) ∨ (q ≠ p ∧ processes q = at_q) := by
  by_cases hqp : q = p
  · subst hqp
    rw [Function.update_self] at h
    exact Or.inl ⟨rfl, h⟩
  · rw [Function.update_of_ne hqp] at h
    exact Or.inr ⟨hqp, h⟩

structure Ranked (last : ℕ) (processes : ℕ → Process) : Prop where
  le : ∀ p e, (processes p).epoch = some e → e ≤ last
  distinct : ∀ p q e, (processes p).epoch = some e → (processes q).epoch = some e → p = q

theorem ranked_put {last : ℕ} {processes : ℕ → Process} (h : Ranked last processes) (p : ℕ)
    (process : Process)
    (hp : ∀ e, process.epoch = some e → (processes p).epoch = some e) :
    Ranked last (Function.update processes p process) := by
  have hsame : ∀ q e, (Function.update processes p process q).epoch = some e →
      (processes q).epoch = some e := by
    intro q e hq
    rcases @update_cases processes p q process _ rfl with ⟨rfl, h⟩ | ⟨_, h⟩ <;> rw [← h] at hq
    · exact hp e hq
    · exact hq
  exact ⟨fun q e hq => h.le q e (hsame q e hq),
    fun q q' e hq hq' => h.distinct q q' e (hsame q e hq) (hsame q' e hq')⟩

theorem ranked_next {last : ℕ} {processes : ℕ → Process} (h : Ranked last processes) (p : ℕ)
    (lsn : UInt64) :
    Ranked (last + 1) (Function.update processes p (.initialised lsn (last + 1))) := by
  have hcases : ∀ q e, (Function.update processes p (.initialised lsn (last + 1)) q).epoch = some e →
      (q = p ∧ e = last + 1) ∨ (e ≤ last ∧ (processes q).epoch = some e) := by
    intro q e hq
    rcases @update_cases processes p q (.initialised lsn (last + 1)) _ rfl with
      ⟨rfl, h'⟩ | ⟨_, h'⟩ <;> rw [← h'] at hq
    · exact Or.inl ⟨rfl, (Option.some.inj hq).symm⟩
    · exact Or.inr ⟨h.le q e hq, hq⟩
  constructor
  · intro q e hq
    rcases hcases q e hq with ⟨_, rfl⟩ | ⟨hle, _⟩
    · exact Nat.le_refl _
    · exact Nat.le_succ_of_le hle
  · intro q q' e hq hq'
    rcases hcases q e hq with ⟨rfl, he⟩ | ⟨hle, hq⟩ <;>
      rcases hcases q' e hq' with ⟨rfl, he'⟩ | ⟨hle', hq'⟩
    · rfl
    · omega
    · omega
    · exact h.distinct q q' e hq hq'

section Invariant
variable (k : KafkaTopics) (wal : Wal) (Holds : List Row → ℕ → Prop) (Back : ℕ → ℕ → Prop)
  (Stands : UInt64 → UInt64 → Prop)

/-- The world seen as one producer that starts again and again: the process
that took over last, while it has a stream. -/
structure Sound (w : World) (d : Deployment) : Prop where
  inv : Inv k wal Holds Back d
  log : d.committed = w.log
  confirmed : d.confirmed = w.confirmed
  process : ∀ r, d.process = some r ↔ ∃ p, w.processes p = .streaming w.epoch r
  ranked : Ranked w.epoch w.processes
  stands : ∀ p lsn, w.processes p = .initialised lsn w.epoch → Stands lsn (checkpoint w.log)
  /-- What a fenced process may tell the server is in the log, and nobody adds to it. -/
  told : ∀ p e r, w.slot = some p → w.processes p = .streaming e r → e ≠ w.epoch →
    ∀ l ∈ r.reader.applied, d.process = none ∧ l ≤ checkpoint w.log

variable {k wal Holds Back Stands}
variable {w : World} {d : Deployment}

/-- What processes other than the current one do is not seen, as long as none of
them takes its place. -/
theorem put_other (h : Sound k wal Holds Back Stands w d) (p : ℕ) (process : Process)
    (slot : Option ℕ) (hbefore : ∀ r, w.processes p ≠ .streaming w.epoch r)
    (hafter : ∀ r, process ≠ .streaming w.epoch r)
    (hepoch : ∀ e, process.epoch = some e → (w.processes p).epoch = some e)
    (hnew : ∀ lsn e, process ≠ .initialised lsn e)
    (hslot : ∀ q, slot = some q → q ≠ p → w.slot = some q)
    (htold : ∀ e r, slot = some p → process = .streaming e r →
      ∀ l ∈ r.reader.applied, d.process = none ∧ l ≤ checkpoint w.log) :
    Sound k wal Holds Back Stands { w.put p process with slot := slot } d where
  inv := h.inv
  log := h.log
  confirmed := h.confirmed
  process := by
    intro r
    rw [h.process r]
    constructor
    · rintro ⟨q, hq⟩
      have hqp : q ≠ p := fun hqp => hbefore r (hqp ▸ hq)
      exact ⟨q, (Function.update_of_ne hqp _ _).trans hq⟩
    · rintro ⟨q, hq⟩
      rcases update_cases hq with ⟨_, hq⟩ | ⟨_, hq⟩
      · exact absurd hq (hafter r)
      · exact ⟨q, hq⟩
  ranked := ranked_put h.ranked p process hepoch
  stands := by
    intro q lsn hq
    rcases update_cases hq with ⟨_, hq⟩ | ⟨_, hq⟩
    · exact absurd hq (hnew lsn _)
    · exact h.stands q lsn hq
  told := by
    intro q e r hq hr he
    rcases update_cases hr with ⟨rfl, hr'⟩ | ⟨hqp, hr'⟩
    · exact htold e r hq hr'
    · exact h.told q e r (hslot q hq hqp) hr' he

theorem freed_slot {w : World} {p q : ℕ} (h : (w.exit p).slot = some q) : w.slot = some q ∧ q ≠ p := by
  change (if w.slot = some p then none else w.slot) = some q at h
  by_cases hp : w.slot = some p
  · rw [if_pos hp] at h
    cases h
  · rw [if_neg hp] at h
    exact ⟨h, fun hqp => hp (hqp ▸ h)⟩

theorem exit_other (h : Sound k wal Holds Back Stands w d) (p : ℕ)
    (hbefore : ∀ r, w.processes p ≠ .streaming w.epoch r) :
    Sound k wal Holds Back Stands (w.exit p) d := by
  refine put_other h p .down _ hbefore ?_ ?_ ?_ ?_ ?_
  · intro r hr
    cases hr
  · intro e he
    cases he
  · intro lsn e he
    cases he
  · intro q hq _
    exact (freed_slot hq).1
  · intro e r hq _
    exact absurd rfl (freed_slot hq).2

section Turns
variable (hr : Resumes k wal (StandingRead Stands) Holds Back) (h : Sound k wal Holds Back Stands w d)
include hr h

theorem exit_current (p : ℕ) (r : Running) (hp : w.processes p = .streaming w.epoch r) :
    Sound k wal Holds Back Stands (w.exit p) d.ended where
  inv := Or.inl (inv_committed hr d h.inv).1
  log := h.log
  confirmed := h.confirmed
  process := by
    intro r'
    constructor
    · intro hr'
      cases hr'
    · rintro ⟨q, hq⟩
      rcases update_cases hq with ⟨_, hq'⟩ | ⟨hqp, hq'⟩
      · cases hq'
      · exact absurd (h.ranked.distinct q p w.epoch (by rw [hq']; rfl) (by rw [hp]; rfl)) hqp
  ranked := ranked_put h.ranked p .down (fun e he => by cases he)
  stands := by
    intro q lsn hq
    rcases update_cases hq with ⟨_, hq'⟩ | ⟨_, hq'⟩
    · cases hq'
    · exact h.stands q lsn hq'
  told := by
    intro q e r' hq hr' he l hl
    rcases update_cases hr' with ⟨_, hq'⟩ | ⟨_, hq'⟩
    · cases hq'
    · exact ⟨rfl, (h.told q e r' (freed_slot hq).1 hq' he l hl).2⟩

theorem exit_sound (p : ℕ) : ∃ d', Sound k wal Holds Back Stands (w.exit p) d' := by
  by_cases hp : ∃ r, w.processes p = .streaming w.epoch r
  · obtain ⟨r, hp⟩ := hp
    exact ⟨d.ended, exit_current hr h p r hp⟩
  · exact ⟨d, exit_other h p (fun r hr => hp ⟨r, hr⟩)⟩

omit hr in
theorem readLsn_sound (p : ℕ) (polls : List Poll) :
    Sound k wal Holds Back Stands (turn k (.readLsn p polls) w) d := by
  simp only [turn]
  split
  · next lsn hp _ =>
    refine put_other h p (.lsnRead lsn) w.slot ?_ ?_ ?_ ?_ (fun q hq _ => hq) ?_
    · intro r hr
      rw [hp] at hr
      cases hr
    · intro r hr
      cases hr
    · intro e he
      cases he
    · intro lsn' e he
      cases he
    · intro e r _ hr
      cases hr
  · exact h

theorem init_sound (p : ℕ) (hkept : Kept Stands w (.initTransactions p)) :
    ∃ d', Sound k wal Holds Back Stands (turn k (.initTransactions p) w) d' := by
  simp only [turn]
  split
  · next lsn hp =>
    refine ⟨d.ended, ?_⟩
    exact {
      inv := Or.inl (inv_committed hr d h.inv).1
      log := h.log
      confirmed := h.confirmed
      process := by
        intro r
        constructor
        · intro hr
          cases hr
        · rintro ⟨q, hq⟩
          rcases update_cases hq with ⟨_, hq'⟩ | ⟨_, hq'⟩
          · cases hq'
          · have hle := h.ranked.le q (w.epoch + 1) (by rw [hq']; rfl)
            omega
      ranked := ranked_next h.ranked p lsn
      stands := by
        intro q lsn' hq
        rcases update_cases hq with ⟨_, hq'⟩ | ⟨_, hq'⟩
        · cases hq'
          exact hkept lsn (by rw [hp]; rfl)
        · have hle := h.ranked.le q (w.epoch + 1) (by rw [hq']; rfl)
          omega
      told := by
        intro q e r hq hr' he l hl
        rcases update_cases hr' with ⟨_, hq'⟩ | ⟨_, hq'⟩
        · cases hq'
        · refine ⟨rfl, ?_⟩
          by_cases hcurrent : e = w.epoch
          · subst hcurrent
            have happlied := inv_applied hr d h.inv r ((h.process r).mpr ⟨q, hq'⟩) l hl
            rwa [h.log] at happlied
          · exact (h.told q e r hq hq' hcurrent l hl).2 }
  · exact ⟨d, h⟩

theorem connect_current (p : ℕ) (lsn : UInt64) (hp : w.processes p = .initialised lsn w.epoch) :
    Sound k wal Holds Back Stands
      { w.put p (.streaming w.epoch
          ⟨restarted k w.log, max lsn w.confirmed, (Source.init, false)⟩) with slot := some p }
      (happen k (startAt lsn) d) := by
  have hstart : happen k (startAt lsn) d = ⟨d.committed, d.confirmed,
      some ⟨restarted k d.committed, max lsn d.confirmed, (Source.init, false)⟩⟩ := by
    simp only [startAt, happen, readLsn_at]
  have hread : StandingRead Stands d.committed
      [.message (some (BigEndian.toBytes 8 lsn.toNat)), .timeout] := by
    intro lsn' hlsn'
    rw [readLsn_at] at hlsn'
    cases hlsn'
    rw [h.log]
    exact h.stands p lsn hp
  have hinv := start_inv hr _ d h.inv hread
  change Inv k wal Holds Back (happen k (startAt lsn) d) at hinv
  rw [hstart, h.log, h.confirmed] at hinv ⊢
  exact {
    inv := hinv
    log := rfl
    confirmed := rfl
    process := by
      intro r
      constructor
      · intro hr
        cases hr
        exact ⟨p, Function.update_self _ _ _⟩
      · rintro ⟨q, hq⟩
        rcases update_cases hq with ⟨_, hq'⟩ | ⟨hqp, hq'⟩
        · cases hq'
          rfl
        · exact absurd (h.ranked.distinct q p w.epoch (by rw [hq']; rfl) (by rw [hp]; rfl)) hqp
    ranked := ranked_put h.ranked p _ (fun e he => by rw [hp]; exact he)
    stands := by
      intro q lsn' hq
      rcases update_cases hq with ⟨_, hq'⟩ | ⟨_, hq'⟩
      · cases hq'
      · exact h.stands q lsn' hq'
    told := by
      intro q e r hq hr' he
      rcases update_cases hr' with ⟨_, hq'⟩ | ⟨hqp, _⟩
      · cases hq'
        exact absurd rfl he
      · exact absurd (Option.some.inj hq).symm hqp }

theorem connect_sound (p : ℕ) : ∃ d', Sound k wal Holds Back Stands (turn k (.connect p) w) d' := by
  simp only [turn]
  split
  · next lsn epoch hp =>
    have hbefore : ∀ r, w.processes p ≠ .streaming w.epoch r := by
      intro r hr
      rw [hp] at hr
      cases hr
    split
    · by_cases hcurrent : epoch = w.epoch
      · subst hcurrent
        exact ⟨_, connect_current hr h p lsn hp⟩
      · refine ⟨d, put_other h p _ (some p) hbefore ?_ ?_ ?_ ?_ ?_⟩
        · intro r hr
          cases hr
          exact hcurrent rfl
        · intro e he
          rw [hp]
          exact he
        · intro lsn' e he
          cases he
        · intro q hq hqp
          exact absurd (Option.some.inj hq).symm hqp
        · intro e r _ hr l hl
          cases hr
          cases hl
    · exact ⟨d, exit_other h p hbefore⟩
  · exact ⟨d, h⟩

theorem replication_current (p : ℕ) (i : Step) (r : Running) (reader : KafkaReader)
    (hp : w.processes p = .streaming w.epoch r) (hs : step i r.reader = some reader)
    (hwell : wellBracketed r.seen.1 i = true)
    (horder : (r.seen.1.observe i).complete.map inWal <+: wal.streamFrom r.position)
    (hheld : HoldsBack (r.reader, r.seen) i) :
    Sound k wal Holds Back Stands
      { w.put p (.streaming w.epoch ⟨reader, r.position, watch r.reader r.seen i⟩) with
        log := committedTxs reader }
      (happen k (.replication i) d) := by
  have hprocess : d.process = some r := (h.process r).mpr ⟨p, hp⟩
  have honly : ∀ r' ∈ d.process, r' = r := by
    intro r' hr'
    exact Option.some.inj (hr'.symm.trans hprocess)
  have hinv := inv_step hr (.replication i) d h.inv
    (fun r' hr' => honly r' hr' ▸ ⟨hwell, horder⟩) (fun r' hr' => honly r' hr' ▸ hheld)
  have hnext : happen k (.replication i) d =
      ⟨d.past, d.confirmed, some ⟨reader, r.position, watch r.reader r.seen i⟩⟩ := by
    simp only [happen, hprocess, hs]
  rw [hnext] at hinv ⊢
  exact {
    inv := hinv
    log := rfl
    confirmed := h.confirmed
    process := by
      intro r'
      constructor
      · intro hr'
        cases hr'
        exact ⟨p, Function.update_self _ _ _⟩
      · rintro ⟨q, hq⟩
        rcases update_cases hq with ⟨_, hq'⟩ | ⟨hqp, hq'⟩
        · cases hq'
          rfl
        · exact absurd (h.ranked.distinct q p w.epoch (by rw [hq']; rfl) (by rw [hp]; rfl)) hqp
    ranked := ranked_put h.ranked p _ (fun e he => by rw [hp]; exact he)
    stands := by
      intro q lsn hq
      rcases update_cases hq with ⟨_, hq'⟩ | ⟨hqp, hq'⟩
      · cases hq'
      · exact absurd (h.ranked.distinct q p w.epoch (by rw [hq']; rfl) (by rw [hp]; rfl)) hqp
    told := by
      intro q e r' hq hr' he l hl
      rcases update_cases hr' with ⟨_, hq'⟩ | ⟨_, hq'⟩
      · cases hq'
        exact absurd rfl he
      · -- Nothing was applied by a process that is streamed to beside the current one.
        have hnone := (h.told q e r' hq hq' he l hl).1
        rw [hprocess] at hnone
        cases hnone }

omit hr in
theorem replication_other (p epoch : ℕ) (i : Step) (r : Running) (reader : KafkaReader) (seen : Watch)
    (hp : w.processes p = .streaming epoch r) (hcurrent : epoch ≠ w.epoch)
    (hs : step ⟨i.event, fenced i.outcomes⟩ r.reader = some reader) :
    Sound k wal Holds Back Stands (w.put p (.streaming epoch ⟨reader, r.position, seen⟩)) d := by
  refine put_other h p _ w.slot ?_ ?_ ?_ ?_ (fun q hq _ => hq) ?_
  · intro r' hr'
    rw [hp] at hr'
    cases hr'
    exact hcurrent rfl
  · intro r' hr'
    cases hr'
    exact hcurrent rfl
  · intro e he
    rw [hp]
    exact he
  · intro lsn e he
    cases he
  · intro e r' hq hr' l hl
    cases hr'
    have hl' : l ∈ r.reader.applied := by
      rw [← fenced_keeps i r.reader reader hs]
      exact hl
    exact h.told p epoch r hq hp hcurrent l hl'

theorem replication_sound (p : ℕ) (i : Step) (hgiven : Given wal w (.replication p i))
    (hkept : Kept Stands w (.replication p i)) :
    ∃ d', Sound k wal Holds Back Stands (turn k (.replication p i) w) d' := by
  simp only [turn]
  split
  · next epoch r hp =>
    have hrunning : r ∈ (w.processes p).running := by
      rw [hp]
      rfl
    obtain ⟨hwell, horder⟩ := hgiven r hrunning
    have hheld := hkept r hrunning
    have hepoch : (w.processes p).epoch = some epoch := by
      rw [hp]
      rfl
    split
    · next reader hs =>
      by_cases hcurrent : epoch = w.epoch
      · subst hcurrent
        have hanswered : w.answered p i = i := if_pos hepoch
        have hlogged : w.logged p reader = committedTxs reader := if_pos hepoch
        rw [hanswered] at hs hwell horder hheld
        rw [hanswered, hlogged]
        exact ⟨_, replication_current hr h p i r reader hp hs hwell horder hheld⟩
      · have hother : ¬ w.Current p := by
          intro hc
          exact hcurrent (Option.some.inj (hepoch.symm.trans hc))
        have hanswered : w.answered p i = ⟨i.event, fenced i.outcomes⟩ := if_neg hother
        have hlogged : w.logged p reader = w.log := if_neg hother
        rw [hanswered] at hs
        rw [hlogged]
        exact ⟨d, replication_other h p epoch i r reader _ hp hcurrent hs⟩
    · exact exit_sound hr h p
  · exact ⟨d, h⟩

omit hr in
theorem confirm_sound (lsn : UInt64) (hgiven : Given wal w (.confirm lsn)) :
    ∃ d', Sound k wal Holds Back Stands (turn k (.confirm lsn) w) d' := by
  have hinv : Inv k wal Holds Back { d with confirmed := lsn } := by
    rcases hgiven with hle | ⟨p, hp, r, hrunning, l, hl, hle⟩
    · rw [← h.confirmed] at hle
      have htold : ProducerRestarts.Given wal (StandingRead Stands) d (.confirm lsn) := Or.inl hle
      exact confirm_inv lsn d h.inv htold
    · cases hstate : w.processes p with
      | streaming epoch r' =>
        rw [hstate] at hrunning
        cases hrunning
        by_cases hcurrent : epoch = w.epoch
        · subst hcurrent
          have hprocess := (h.process r).mpr ⟨p, hstate⟩
          have htold : ProducerRestarts.Given wal (StandingRead Stands) d (.confirm lsn) :=
            Or.inr ⟨r, hprocess, l, hl, hle⟩
          exact confirm_inv lsn d h.inv htold
        · obtain ⟨hidle, hlast⟩ := h.told p epoch r hp hstate hcurrent l hl
          rw [← h.log] at hlast
          exact confirm_idle lsn d h.inv hidle (UInt64.le_trans hle hlast)
      | _ =>
        rw [hstate] at hrunning
        cases hrunning
  exact ⟨{ d with confirmed := lsn }, {
    inv := hinv
    log := h.log
    confirmed := rfl
    process := h.process
    ranked := h.ranked
    stands := h.stands
    told := h.told }⟩

theorem sound_turn (t : Turn) (hgiven : Given wal w t) (hkept : Kept Stands w t) :
    ∃ d', Sound k wal Holds Back Stands (turn k t w) d' := by
  cases t with
  | readLsn p polls => exact ⟨d, readLsn_sound h p polls⟩
  | initTransactions p => exact init_sound hr h p hkept
  | connect p => exact connect_sound hr h p
  | replication p i => exact replication_sound hr h p i hgiven hkept
  | confirm lsn => exact confirm_sound h lsn hgiven
  | dropped =>
    exact ⟨d, { h with told := fun p e r hp => by cases hp }⟩
  | closed p o =>
    simp only [turn]
    split
    · next epoch r hp =>
      have hlog : w.logged p (close o r.reader) = w.log := by
        rw [World.logged]
        split
        · next hcurrent =>
          have hepoch : epoch = w.epoch := by
            rw [World.Current, hp] at hcurrent
            exact Option.some.inj hcurrent
          subst hepoch
          rw [(close_committed o r.reader).1, ← h.log, Deployment.committed,
            (h.process r).mpr ⟨p, hp⟩]
        · rfl
      rw [hlog]
      exact exit_sound hr h p
    · exact ⟨d, h⟩
  | crash p => exact exit_sound hr h p

end Turns

theorem sound_idle (hr : Resumes k wal (StandingRead Stands) Holds Back) :
    Sound k wal Holds Back Stands idle fresh where
  inv := inv_fresh hr
  log := rfl
  confirmed := rfl
  process := by
    intro r
    constructor
    · intro hr
      cases hr
    · rintro ⟨p, hp⟩
      cases hp
  ranked := ⟨fun p e he => (by cases he), fun p q e he => (by cases he)⟩
  stands := by
    intro p lsn hp
    cases hp
  told := by
    intro p e r hp
    cases hp

end Invariant

abbrev act (k : KafkaTopics) (t : Turn) (w : World) : Option World := some (turn k t w)

section Results
variable (topic key : String) (wal : Wal)

/-- However processes overlap, no row is missing and the tables come out right,
as long as none takes over with an LSN beyond the last one committed. -/
theorem overlapping_at_least_once (turns : List Turn)
    (hgiven : Meets (act (KafkaTopics.new topic key)) (Given wal) turns idle)
    (hkept : Meets (act (KafkaTopics.new topic key)) (Kept (fun lsn last => lsn ≤ last)) turns idle) :
    Always (act (KafkaTopics.new topic key)) (fun w => AtLeastOnce wal w.log) turns idle := by
  have hr := early_resumes topic key wal
  refine always_of_meets (fun w => ∃ d, Sound (KafkaTopics.new topic key) wal _ _ _ w d) _ ?_ ?_
    turns idle ⟨fresh, sound_idle hr⟩ hgiven hkept
  · rintro w ⟨d, h⟩
    obtain ⟨n, hat⟩ := (inv_committed hr d h.inv).2
    rw [← h.log]
    exact least_at wal hat
  · rintro t w w' ⟨d, h⟩ hgiven hkept hw
    cases hw
    exact sound_turn hr h t hgiven hkept

/-- When every process takes over with the last LSN committed, every row is
there once. -/
theorem overlapping_exactly_once (turns : List Turn)
    (hgiven : Meets (act (KafkaTopics.new topic key)) (Given wal) turns idle)
    (hkept : Meets (act (KafkaTopics.new topic key)) (Kept (fun lsn last => lsn = last)) turns idle) :
    Always (act (KafkaTopics.new topic key)) (fun w => ExactlyOnce wal w.log) turns idle := by
  have hr := latest_resumes wal (KafkaTopics.new topic key)
  refine always_of_meets (fun w => ∃ d, Sound (KafkaTopics.new topic key) wal _ _ _ w d) _ ?_ ?_
    turns idle ⟨fresh, sound_idle hr⟩ hgiven hkept
  · rintro w ⟨d, h⟩
    obtain ⟨n, hat⟩ := (inv_committed hr d h.inv).2
    rw [← h.log]
    exact exact_at wal hat
  · rintro t w w' ⟨d, h⟩ hgiven hkept hw
    cases hw
    exact sound_turn hr h t hgiven hkept

def insertBy (p : ℕ) (n : UInt8) (lsn endLsn : UInt64) : List Turn :=
  [.replication p ⟨.begin, {}⟩, .replication p ⟨.xlogData (insertData n), {}⟩,
    .replication p ⟨.commit lsn endLsn, {}⟩]

def announcedBy (p : ℕ) : Turn := .replication p ⟨.xlogData relationData, {}⟩

def firstUp : List Turn :=
  [.readLsn 0 [.timeout], .initTransactions 0, .connect 0, announcedBy 0] ++ insertBy 0 1 10 12

def readSecond : Turn := .readLsn 1 [.message (some [0, 0, 0, 0, 0, 0, 0, 12]), .timeout]

/-- The first process still commits after the second one read its LSN. -/
def raced : List Turn :=
  firstUp ++ readSecond :: insertBy 0 2 20 23 ++
    [.dropped, .initTransactions 1, .connect 1, announcedBy 1] ++ insertBy 1 2 20 23

theorem raced_at_least_once :
    Always (act (KafkaTopics.new "cdc" "k")) (fun w => AtLeastOnce twoInserts w.log) raced idle :=
  overlapping_at_least_once "cdc" "k" twoInserts raced (by decide +kernel) (by decide +kernel)

example : ¬ ExactlyOnce twoInserts
    (raced.foldl (fun w t => turn (KafkaTopics.new "cdc" "k") t w) idle).log := by
  unfold ExactlyOnce
  decide +kernel

/-- The first process is fenced before it commits what it had received. -/
def takenOver : List Turn :=
  firstUp ++ readSecond :: (insertBy 0 2 20 23).take 2 ++
    [.dropped, .initTransactions 1, .connect 1, announcedBy 1] ++
      .replication 0 ⟨.commit 20 23, {}⟩ :: insertBy 1 2 20 23

theorem taken_over_exactly_once :
    Always (act (KafkaTopics.new "cdc" "k")) (fun w => ExactlyOnce twoInserts w.log) takenOver idle :=
  overlapping_exactly_once "cdc" "k" twoInserts takenOver (by decide +kernel) (by decide +kernel)

end Results

end CDC.ProducerOverlap
