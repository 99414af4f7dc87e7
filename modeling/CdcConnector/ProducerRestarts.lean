import CdcConnector.Checkpoint
import CdcConnector.LsnTopic
import CdcConnector.Redelivery
import CdcConnector.SourceWal

/-!
# The producer across restarts

The producer reads the LSN topic, asks the server for the stream from there and
writes until it is closed or crashes; then it is started again over the log it
left behind. The server goes back no further than the position it was told was
applied. Whatever fails and wherever it crashes, the rows committed are the rows
of the transactions up to the checkpoint, as long as no process commits after it
lost a row.
-/

set_option autoImplicit false

namespace CDC.ProducerRestarts
open CDC.Fallible CDC.Event CDC.Decoder CDC.RelationDecoder CDC.RowDecoder CDC.ProducerModel
open CDC.SerdeAvro CDC.TransactionLog CDC.PartialRun CDC.WalReader CDC.SourceStream CDC.KafkaLoop
open CDC.Checkpoint CDC.Compaction CDC.ProducerLog CDC.LsnTopic CDC.SourceWal CDC.Redelivery CDC.Replay

structure Running where
  reader : KafkaReader
  position : UInt64
  seen : Watch

structure Deployment where
  /-- What was committed before the process started. -/
  past : List (List Record)
  /-- Up to here the server takes the stream as applied. -/
  confirmed : UInt64
  process : Option Running

def Deployment.committed (d : Deployment) : List (List Record) :=
  match d.process with
  | some r => committedTxs r.reader
  | none => d.past

def Deployment.ended (d : Deployment) : Deployment := ⟨d.committed, d.confirmed, none⟩

inductive Happening where
  | start (polls : List Poll)
  | replication (i : Step)
  | confirm (lsn : UInt64)
  | closed (o : Outcomes)
  | crash

/-- A start that cannot read the LSN topic ends the process, and so does a
panic. -/
def happen (k : KafkaTopics) : Happening → Deployment → Deployment
  | .start polls, d =>
    match readLsn polls with
    | some (.ok lsn) =>
      { d with
        past := d.committed
        process := some ⟨restarted k d.committed, max lsn d.confirmed, (Source.init, false)⟩ }
    | _ => d.ended
  | .replication i, d =>
    match d.process with
    | some r =>
      match step i r.reader with
      | some reader => { d with process := some ⟨reader, r.position, watch r.reader r.seen i⟩ }
      | none => d.ended
    | none => d
  | .confirm lsn, d => { d with confirmed := lsn }
  | .closed o, d =>
    match d.process with
    | some r => ⟨committedTxs (close o r.reader), d.confirmed, none⟩
    | none => d
  | .crash, d => d.ended

def fresh : Deployment := ⟨[], 0, none⟩

/-- What the outside does: the LSN topic is read as `Reads` says, the stream is
well bracketed and is the server's from the position asked for, and the server
only takes for applied what it was told. -/
def Given (wal : Wal) (Reads : List (List Record) → List Poll → Prop) (d : Deployment) :
    Happening → Prop
  | .start polls => Reads d.committed polls
  | .replication i => ∀ r ∈ d.process, wellBracketed r.seen.1 i = true ∧
      ((r.seen.1.observe i).complete.map inWal) <+: wal.streamFrom r.position
  | .confirm lsn => lsn ≤ d.confirmed ∨ ∃ r ∈ d.process, ∃ l ∈ r.reader.applied, lsn ≤ l
  | .closed _ => True
  | .crash => True

/-- No process commits after it lost a row. -/
def HeldBack (d : Deployment) : Happening → Prop
  | .replication i => ∀ r ∈ d.process, HoldsBack (r.reader, r.seen) i
  | _ => True

instance (wal : Wal) (Reads : List (List Record) → List Poll → Prop)
    [∀ txs polls, Decidable (Reads txs polls)] (d : Deployment) (e : Happening) :
    Decidable (Given wal Reads d e) :=
  match e with
  | .start polls => inferInstanceAs (Decidable (Reads d.committed polls))
  | .replication i => inferInstanceAs (Decidable (∀ r ∈ d.process, wellBracketed r.seen.1 i = true ∧
      ((r.seen.1.observe i).complete.map inWal) <+: wal.streamFrom r.position))
  | .confirm lsn => inferInstanceAs
      (Decidable (lsn ≤ d.confirmed ∨ ∃ r ∈ d.process, ∃ l ∈ r.reader.applied, lsn ≤ l))
  | .closed _ => isTrue trivial
  | .crash => isTrue trivial

instance (d : Deployment) (e : Happening) : Decidable (HeldBack d e) :=
  match e with
  | .start _ => isTrue trivial
  | .replication i => inferInstanceAs (Decidable (∀ r ∈ d.process, HoldsBack (r.reader, r.seen) i))
  | .confirm _ => isTrue trivial
  | .closed _ => isTrue trivial
  | .crash => isTrue trivial

theorem given_imp (wal : Wal) {Reads Reads' : List (List Record) → List Poll → Prop}
    (h : ∀ txs polls, Reads txs polls → Reads' txs polls) (d : Deployment) (e : Happening)
    (hgiven : Given wal Reads d e) : Given wal Reads' d e := by
  cases e with
  | start polls => exact h d.committed polls hgiven
  | _ => exact hgiven

/-- The rows committed are those of the transactions up to the checkpoint, each
once and in order. -/
def ExactlyOnce (wal : Wal) (txs : List (List Record)) : Prop :=
  rowsOf txs.flatten = rowsIn (wal.txs.filter (fun x => x.endLsn ≤ checkpoint txs))

abbrev deploy (k : KafkaTopics) (h : Happening) (d : Deployment) : Option Deployment :=
  some (happen k h d)

theorem le_later (lsn confirmed : UInt64) : confirmed ≤ max lsn confirmed := by
  show confirmed ≤ if lsn ≤ confirmed then confirmed else lsn
  split
  · exact UInt64.le_refl _
  · next h => exact UInt64.le_of_lt (UInt64.not_le.mp h)

section Process
variable (s s' : KafkaReader)

def Ends (s : KafkaReader) (t : Source) (done : List SourceTx) : Prop :=
  done <+: t.complete ∧ committedRows s = done.flatMap SourceTx.rows ∧
    (committedLsns s).getLast? = done.getLast?.map SourceTx.endLsn ∧
    ∀ l ∈ s.applied, ∃ x ∈ done, x.lsn = l

theorem step_keeps (i : Step) (hc : commits s i = false) (hs : step i s = some s') :
    committedTxs s' = committedTxs s ∧ s'.applied = s.applied := by
  obtain ⟨event, o⟩ := i
  obtain ⟨map, flag, ⟨k, ⟨pending, c⟩⟩, ap⟩ := s
  rcases step_cases ⟨event, o⟩ _ s' hs with
    ⟨_, rfl⟩ | ⟨rd, _, rfl⟩ | ⟨result, _, hs⟩ | ⟨_, rfl⟩ | ⟨lsn, endLsn, ha, rfl⟩
  · exact ⟨rfl, rfl⟩
  · cases pending <;> simp
  · rcases onChange_cases o result _ s' hs with
      ⟨_, rfl⟩ | ⟨_, _, rfl⟩ | ⟨_, event', rd, rfl, rfl⟩
    · exact ⟨rfl, rfl⟩
    · exact ⟨rfl, rfl⟩
    · cases pending <;> cases hsend : o.send <;> simp [hsend]
  · cases flag <;> cases pending <;> simp
  · have hevent : event = .commit lsn endLsn := action_commit ha
    subst hevent
    cases flag with
    | false => exact ⟨rfl, rfl⟩
    | true =>
      cases pending with
      | none => simp
      | some buf =>
        cases hl : o.sendLsn <;> cases hcom : o.commitTransaction <;>
          simp [commits, hl, hcom] at hc ⊢

theorem observe_grows (t : Source) (i : Step) : t.complete <+: (t.observe i).complete := by
  obtain ⟨map, current, complete⟩ := t
  unfold Source.observe
  cases action map i.event with
  | commit lsn endLsn =>
    cases current with
    | none => exact List.prefix_refl _
    | some cs => exact List.prefix_append _ _
  | _ => exact List.prefix_refl _

/-- A commit that goes through commits the transaction the source just ended. -/
theorem step_commits (i : Step) (t : Source) (hwell : wellBracketed t i = true)
    (hc : commits s i = true) (hs : step i s = some s') :
    ∃ x, (t.observe i).complete = t.complete ++ [x] ∧
      receivedRows t = (t.complete ++ [x]).flatMap SourceTx.rows ∧
      committedRows s' = committedRows s ++ pendingRows s ∧
      (committedLsns s').getLast? = some x.endLsn ∧ s'.applied = s.applied ++ [x.lsn] := by
  obtain ⟨event, o⟩ := i
  cases event with
  | commit lsn endLsn =>
    have hwell' : t.current.isSome = true := (Bool.and_eq_true_iff.mp hwell).1
    obtain ⟨map, flag, ⟨k, ⟨pending, c⟩⟩, ap⟩ := s
    obtain ⟨tmap, current, complete⟩ := t
    obtain ⟨cs, rfl⟩ := Option.isSome_iff_exists.mp hwell'
    simp only [commits, pendingTx_state, Bool.and_eq_true] at hc
    obtain ⟨⟨⟨rfl, hp⟩, hl⟩, hcom⟩ := hc
    obtain ⟨buf, rfl⟩ := Option.isSome_iff_exists.mp hp
    have hs' : s' = onCommit o lsn endLsn _ := (Option.some.inj hs).symm
    rw [hs', commit_open, if_pos hl, if_pos hcom]
    refine ⟨⟨cs, lsn, endLsn⟩, rfl, ?_, ?_, ?_, rfl⟩
    · simp [receivedRows, SourceTx.rows]
    · simp
    · simp
  | _ => cases hc

theorem ends_step (i : Step) (w : Watch) (done : List SourceTx) (htracked : Tracked s w.1 w.2)
    (h : Ends s w.1 done) (hwell : wellBracketed w.1 i = true) (hholds : HoldsBack (s, w) i)
    (hs : step i s = some s') :
    ∃ done', Ends s' (w.1.observe i) done' ∧ done ⊆ done' := by
  obtain ⟨t, lost⟩ := w
  obtain ⟨hdone, hrows, hlsns, happlied⟩ := h
  cases hcommits : commits s i with
  | false =>
    obtain ⟨hcom, hap⟩ := step_keeps s s' i hcommits hs
    refine ⟨done, ⟨hdone.trans (observe_grows t i), ?_, ?_, by rwa [hap]⟩, List.Subset.refl _⟩
    · rw [committedRows, hcom]
      exact hrows
    · rw [committedLsns, hcom]
      exact hlsns
  | true =>
    obtain ⟨x, hcomplete, hreceived, hcom, hlast, hap⟩ := step_commits s s' i t hwell hcommits hs
    have hkept : lost = false := by
      cases lost with
      | false => rfl
      | true => exact absurd (hholds rfl) (by simp [hcommits])
    subst hkept
    refine ⟨t.complete ++ [x], ⟨hcomplete ▸ List.prefix_refl _, ?_, by simp [hlast], ?_⟩,
      fun y hy => List.mem_append_left _ (hdone.subset hy)⟩
    · rw [hcom, (htracked.kept rfl).2.1]
      exact hreceived
    · intro l hl
      rw [hap] at hl
      rcases List.mem_append.mp hl with hl | hl
      · obtain ⟨y, hy, rfl⟩ := happlied l hl
        exact ⟨y, List.mem_append_left _ (hdone.subset hy), rfl⟩
      · rw [List.mem_singleton.mp hl]
        exact ⟨x, by simp, rfl⟩

end Process

/-- The log is at a place in the source: its rows are as they should be there,
and its last LSN is where the transactions before it end. -/
structure At (wal : Wal) (Holds : List Row → ℕ → Prop) (txs : List (List Record)) (n : ℕ) : Prop where
  within : n ≤ wal.txs.length
  rows : Holds (rowsOf txs.flatten) n
  last : (lsnsOf txs.flatten).getLast? = (wal.txs.take n).getLast?.map WalTx.endLsn

/-- A process that starts over a log at place `n` has its stream from place `m`,
and the rows it adds keep the log as it should be. -/
structure Resumes (k : KafkaTopics) (wal : Wal) (Reads : List (List Record) → List Poll → Prop)
    (Holds : List Row → ℕ → Prop) (Back : ℕ → ℕ → Prop) : Prop where
  first : Holds [] 0
  starts : ∀ txs n confirmed polls lsn, (∀ r ∈ txs.flatten, Written k r) → At wal Holds txs n →
    confirmed ≤ wal.endOf n → Reads txs polls → readLsn polls = some (.ok lsn) →
    ∃ m ≤ n, Back m n ∧ wal.streamFrom (max lsn confirmed) = wal.txs.drop m
  goesOn : ∀ rows n m part rest, Holds rows n → m ≤ n → Back m n →
    wal.txs.drop m = part ++ rest → Holds (rows ++ rowsIn part) (m + part.length)

theorem at_checkpoint {wal : Wal} {Holds : List Row → ℕ → Prop} {txs : List (List Record)} {n : ℕ}
    (h : At wal Holds txs n) : checkpoint txs = wal.endOf n := by
  rw [checkpoint, h.last, Wal.endOf]

section Invariant
variable (k : KafkaTopics) (wal : Wal) (Holds : List Row → ℕ → Prop) (Back : ℕ → ℕ → Prop)

/-- A running process: the reader is one over an empty log, moved behind the
past; its stream is the source's from place `m`. -/
structure Up (d : Deployment) (r : Running) (n m : ℕ) (s₀ : KafkaReader) (done : List SourceTx) :
    Prop where
  reader : r.reader = s₀.map (withPast d.past)
  past : At wal Holds d.past n
  back : m ≤ n ∧ Back m n
  stream : wal.streamFrom r.position = wal.txs.drop m
  inOrder : r.seen.1.complete.map inWal <+: wal.streamFrom r.position
  tracked : Tracked s₀ r.seen.1 r.seen.2
  ends : Ends s₀ r.seen.1 done
  wrote : Wrote k r.reader
  confirmed : (d.confirmed ≤ wal.endOf n ∧ d.confirmed ≤ r.position) ∨
    ∃ x ∈ done, d.confirmed ≤ x.lsn

structure Down (d : Deployment) : Prop where
  idle : d.process = none
  past : ∃ n, At wal Holds d.past n ∧ d.confirmed ≤ wal.endOf n
  wrote : ∀ r ∈ d.past.flatten, Written k r

def Inv (d : Deployment) : Prop :=
  Down k wal Holds d ∨ ∃ r n m s₀ done, d.process = some r ∧ Up k wal Holds Back d r n m s₀ done

variable {k wal Holds Back} {Reads : List (List Record) → List Poll → Prop}

/-- What a process has committed is at a place of its own. -/
theorem up_reached (hr : Resumes k wal Reads Holds Back) {d : Deployment} {r : Running} {n m : ℕ}
    {s₀ : KafkaReader} {done : List SourceTx} (h : Up k wal Holds Back d r n m s₀ done) :
    ∃ place, At wal Holds (committedTxs r.reader) place ∧ d.confirmed ≤ wal.endOf place ∧
      ∀ l ∈ r.reader.applied, l ≤ wal.endOf place := by
  obtain ⟨hdone, hrows, hlsns, happlied⟩ := h.ends
  have hcommitted : committedTxs r.reader = d.past ++ committedTxs s₀ := by
    rw [h.reader]
    rfl
  have hrows' : rowsOf (committedTxs r.reader).flatten =
      rowsOf d.past.flatten ++ rowsIn (done.map inWal) := by
    rw [hcommitted, List.flatten_append, rowsOf_append, rowsIn_inWal, ← hrows]
    rfl
  have hlsns' : (lsnsOf (committedTxs r.reader).flatten).getLast? =
      (done.getLast?.map SourceTx.endLsn).or (lsnsOf d.past.flatten).getLast? := by
    rw [hcommitted, List.flatten_append, lsnsOf_append, List.getLast?_append, ← hlsns]
    rfl
  have happlied' : ∀ l ∈ r.reader.applied, ∃ x ∈ done, x.lsn = l := by
    rw [h.reader]
    exact happlied
  rcases List.eq_nil_or_concat done with rfl | ⟨before, x, hx⟩
  · refine ⟨n, ⟨h.past.within, ?_, ?_⟩, ?_, ?_⟩
    · rw [hrows', List.map_nil, show rowsIn [] = [] from rfl, List.append_nil]
      exact h.past.rows
    · rw [hlsns', ← h.past.last]
      rfl
    · rcases h.confirmed with hconfirmed | ⟨x, hx, _⟩
      · exact hconfirmed.1
      · cases hx
    · intro l hl
      obtain ⟨x, hx, _⟩ := happlied' l hl
      cases hx
  · obtain ⟨rest, hrest⟩ : done.map inWal <+: wal.txs.drop m := by
      rw [← h.stream]
      exact (hdone.map inWal).trans h.inOrder
    have hwithin := h.past.within
    have hback := h.back.1
    have htake : wal.txs.take (m + (done.map inWal).length) =
        wal.txs.take m ++ done.map inWal := by
      rw [List.take_add, ← hrest, List.take_left]
    have hlast : (wal.txs.take (m + (done.map inWal).length)).getLast?.map WalTx.endLsn =
        some x.endLsn := by
      rw [htake, hx, List.concat_eq_append, List.map_append, ← List.append_assoc]
      exact congrArg (Option.map WalTx.endLsn) List.getLast?_concat
    have hlsn : ∀ y ∈ done, y.lsn ≤ wal.endOf (m + (done.map inWal).length) := by
      intro y hy
      have hmem : inWal y ∈ wal.txs.take (m + (done.map inWal).length) := by
        rw [htake]
        exact List.mem_append_right _ (List.mem_map_of_mem hy)
      have hlt := wal.ends _ (List.take_subset _ _ hmem)
      have hle := wal.le_endOf _ _ hmem
      rw [UInt64.lt_iff_toNat_lt] at hlt
      rw [UInt64.le_iff_toNat_le] at hle ⊢
      exact Nat.le_trans (Nat.le_of_lt hlt) hle
    refine ⟨m + (done.map inWal).length, ⟨?_, ?_, ?_⟩, ?_, ?_⟩
    · have hlen := congrArg List.length hrest
      rw [List.length_append, List.length_drop] at hlen
      omega
    · rw [hrows']
      exact hr.goesOn _ n m _ rest h.past.rows hback h.back.2 hrest.symm
    · rw [hlsns', hlast, hx, List.concat_eq_append, List.getLast?_concat]
      rfl
    · rcases h.confirmed with ⟨_, hposition⟩ | ⟨y, hy, hle⟩
      · have hmem : inWal x ∈ wal.streamFrom r.position := by
          rw [h.stream, ← hrest, hx]
          simp
        have hle := of_decide_eq_true (List.mem_filter.mp hmem).2
        exact UInt64.le_trans hposition (UInt64.le_trans hle (hlsn x (by rw [hx]; simp)))
      · exact UInt64.le_trans hle (hlsn y hy)
    · intro l hl
      obtain ⟨y, hy, rfl⟩ := happlied' l hl
      exact hlsn y hy

theorem inv_committed (hr : Resumes k wal Reads Holds Back) (d : Deployment)
    (h : Inv k wal Holds Back d) : Down k wal Holds d.ended ∧ ∃ n, At wal Holds d.committed n := by
  have hdown : ∀ txs, d.committed = txs → (∃ n, At wal Holds txs n ∧ d.confirmed ≤ wal.endOf n) →
      (∀ r ∈ txs.flatten, Written k r) → Down k wal Holds d.ended ∧ ∃ n, At wal Holds d.committed n := by
    rintro txs rfl ⟨n, hat, hconfirmed⟩ hwrote
    exact ⟨⟨rfl, ⟨n, hat, hconfirmed⟩, hwrote⟩, n, hat⟩
  rcases h with h | ⟨r, n, m, s₀, done, hprocess, h⟩
  · exact hdown d.past (by rw [Deployment.committed, h.idle]) h.past h.wrote
  · obtain ⟨place, hat, hconfirmed, _⟩ := up_reached hr h
    exact hdown (committedTxs r.reader) (by rw [Deployment.committed, hprocess])
      ⟨place, hat, hconfirmed⟩ h.wrote.committed

theorem inv_applied (hr : Resumes k wal Reads Holds Back) (d : Deployment)
    (h : Inv k wal Holds Back d) (r : Running) (hprocess : d.process = some r) :
    ∀ l ∈ r.reader.applied, l ≤ checkpoint d.committed := by
  intro l hl
  rcases h with h | ⟨r', n, m, s₀, done, hr', h⟩
  · rw [h.idle] at hprocess
    cases hprocess
  · obtain rfl := Option.some.inj (hprocess.symm.trans hr')
    obtain ⟨place, hat, _, happlied⟩ := up_reached hr h
    rw [Deployment.committed, hprocess]
    dsimp only
    rw [at_checkpoint hat]
    exact happlied l hl

theorem start_inv (hr : Resumes k wal Reads Holds Back) (polls : List Poll) (d : Deployment)
    (h : Inv k wal Holds Back d) (hread : Reads d.committed polls) :
    Inv k wal Holds Back (happen k (.start polls) d) := by
  obtain ⟨hended, _⟩ := inv_committed hr d h
  cases hlsn : readLsn polls with
  | none =>
    simp only [happen, hlsn]
    exact Or.inl hended
  | some result =>
    cases result with
    | error e =>
      simp only [happen, hlsn]
      exact Or.inl hended
    | ok lsn =>
      obtain ⟨n, hat, hconfirmed⟩ := hended.past
      have hwrote : ∀ r ∈ d.committed.flatten, Written k r := hended.wrote
      obtain ⟨m, hm, hback, hstream⟩ := hr.starts d.committed n d.confirmed polls lsn hwrote hat
        hconfirmed hread hlsn
      simp only [happen, hlsn]
      refine Or.inr ⟨_, n, m, Reader.init ⟨k, Log.empty⟩, [], rfl, ?_⟩
      exact {
        reader := by simp [restarted, Reader.init, Reader.map, withPast, Log.empty]
        past := hat
        back := ⟨hm, hback⟩
        stream := hstream
        inOrder := List.nil_prefix
        tracked := ⟨rfl, ⟨[], [], rfl, rfl, fun _ h => (by cases h), fun _ h => (by cases h)⟩,
          List.Pairwise.nil, fun h => (by cases h), fun _ => ⟨fun h => (by cases h), rfl,
            fun _ h => (by cases h)⟩, fun h => (by cases h)⟩
        ends := ⟨List.nil_prefix, rfl, rfl, fun _ h => (by cases h)⟩
        wrote := ⟨rfl, fun _ h => (by cases h), hwrote⟩
        confirmed := Or.inl ⟨hconfirmed, le_later lsn d.confirmed⟩ }

theorem replication_inv (i : Step) (d : Deployment) (r : Running) (n m : ℕ) (s₀ : KafkaReader)
    (done : List SourceTx) (h : Up k wal Holds Back d r n m s₀ done) (reader : KafkaReader)
    (hs : step i r.reader = some reader) (hwell : wellBracketed r.seen.1 i = true)
    (horder : (r.seen.1.observe i).complete.map inWal <+: wal.streamFrom r.position)
    (hholds : HoldsBack (r.reader, r.seen) i) :
    ∃ s₁ done', Up k wal Holds Back
      { d with process := some ⟨reader, r.position, watch r.reader r.seen i⟩ }
      ⟨reader, r.position, watch r.reader r.seen i⟩ n m s₁ done' := by
  obtain ⟨hreader, hpast, hback, hstream, _, htracked, hends, hwrote, hconfirmed⟩ := h
  have hboth : step i r.reader = (step i s₀).map (Reader.map (withPast d.past)) := by
    rw [hreader]
    exact step_map (past_simulates d.past) i s₀
  rw [hs] at hboth
  obtain ⟨s₁, hs₁, hmap⟩ := Option.map_eq_some_iff.mp hboth.symm
  have hholds₀ : HoldsBack (s₀, r.seen) i := by
    rw [hreader] at hholds
    exact hholds
  have hwatch : watch r.reader r.seen i = watch s₀ r.seen i := by
    rw [hreader]
    rfl
  obtain ⟨done', hends', hgrows⟩ := ends_step s₀ s₁ i r.seen done htracked hends hwell hholds₀ hs₁
  have htracked' := tracked_step i s₀ s₁ r.seen htracked hwell hholds₀ hs₁
  refine ⟨s₁, done', ?_⟩
  rw [hwatch]
  exact {
    reader := hmap.symm
    past := hpast
    back := hback
    stream := hstream
    inOrder := horder
    tracked := htracked'
    ends := hends'
    wrote := wrote_step k i r.reader reader hwrote hs
    confirmed := by
      refine hconfirmed.imp id ?_
      rintro ⟨x, hx, hle⟩
      exact ⟨x, hgrows hx, hle⟩ }

theorem confirm_inv (lsn : UInt64) (d : Deployment)
    (h : Inv k wal Holds Back d) (hgiven : Given wal Reads d (.confirm lsn)) :
    Inv k wal Holds Back (happen k (.confirm lsn) d) := by
  rcases h with ⟨hidle, ⟨n, hat, hconfirmed⟩, hwrote⟩ | ⟨r, n, m, s₀, done, hprocess, h⟩
  · rcases hgiven with hle | ⟨r, hr, _⟩
    · exact Or.inl ⟨hidle, ⟨n, hat, UInt64.le_trans hle hconfirmed⟩, hwrote⟩
    · rw [hidle] at hr
      cases hr
  · obtain ⟨hreader, hpast, hback, hstream, horder, htracked, hends, hwrote, hconfirmed⟩ := h
    have hnext : (lsn ≤ wal.endOf n ∧ lsn ≤ r.position) ∨ ∃ x ∈ done, lsn ≤ x.lsn := by
      rcases hgiven with hle | ⟨r', hr', l, hl, hle⟩
      · rcases hconfirmed with ⟨hend, hposition⟩ | ⟨x, hx, hlsn⟩
        · exact Or.inl ⟨UInt64.le_trans hle hend, UInt64.le_trans hle hposition⟩
        · exact Or.inr ⟨x, hx, UInt64.le_trans hle hlsn⟩
      · obtain rfl := Option.some.inj (hprocess.symm.trans hr')
        rw [hreader] at hl
        obtain ⟨x, hx, rfl⟩ := hends.2.2.2 l hl
        exact Or.inr ⟨x, hx, hle⟩
    exact Or.inr ⟨r, n, m, s₀, done, hprocess,
      ⟨hreader, hpast, hback, hstream, horder, htracked, hends, hwrote, hnext⟩⟩

theorem confirm_idle (lsn : UInt64) (d : Deployment) (h : Inv k wal Holds Back d)
    (hidle : d.process = none) (hle : lsn ≤ checkpoint d.committed) :
    Inv k wal Holds Back { d with confirmed := lsn } := by
  rcases h with ⟨_, ⟨n, hat, _⟩, hwrote⟩ | ⟨r, n, m, s₀, done, hprocess, h⟩
  · rw [Deployment.committed, hidle] at hle
    dsimp only at hle
    rw [at_checkpoint hat] at hle
    exact Or.inl ⟨hidle, ⟨n, hat, hle⟩, hwrote⟩
  · rw [hidle] at hprocess
    cases hprocess

/-- Whatever happens next, the log stays at a place in the source. -/
theorem inv_step (hr : Resumes k wal Reads Holds Back) (e : Happening) (d : Deployment)
    (h : Inv k wal Holds Back d) (hgiven : Given wal Reads d e) (hheld : HeldBack d e) :
    Inv k wal Holds Back (happen k e d) := by
  cases e with
  | start polls => exact start_inv hr polls d h hgiven
  | confirm lsn => exact confirm_inv lsn d h hgiven
  | crash => exact Or.inl (inv_committed hr d h).1
  | closed o =>
    rcases h with h | ⟨r, n, m, s₀, done, hprocess, h⟩
    · rw [happen, h.idle]
      exact Or.inl h
    · rw [happen, hprocess]
      dsimp only
      rw [(close_committed o r.reader).1]
      have hended := (inv_committed hr d (Or.inr ⟨r, n, m, s₀, done, hprocess, h⟩)).1
      rw [Deployment.ended, Deployment.committed, hprocess] at hended
      exact Or.inl hended
  | replication i =>
    have hended := (inv_committed hr d h).1
    rcases h with h | ⟨r, n, m, s₀, done, hprocess, h⟩
    · rw [happen, h.idle]
      exact Or.inl h
    · obtain ⟨hwell, horder⟩ := hgiven r hprocess
      cases hs : step i r.reader with
      | none =>
        simp only [happen, hprocess, hs]
        exact Or.inl hended
      | some reader =>
        simp only [happen, hprocess, hs]
        obtain ⟨s₁, done', hup⟩ := replication_inv i d r n m s₀ done h reader hs hwell horder
          (hheld r hprocess)
        exact Or.inr ⟨_, n, m, s₁, done', rfl, hup⟩

def deployed (k : KafkaTopics) (happenings : List Happening) (d : Deployment) : Deployment :=
  happenings.foldl (fun d e => happen k e d) d

theorem inv_run (hr : Resumes k wal Reads Holds Back) (happenings : List Happening) (d : Deployment)
    (h : Inv k wal Holds Back d) (hgiven : Meets (deploy k) (Given wal Reads) happenings d)
    (hheld : Meets (deploy k) HeldBack happenings d) :
    Inv k wal Holds Back (deployed k happenings d) := by
  induction happenings generalizing d with
  | nil => exact h
  | cons e happenings ih =>
    obtain ⟨hge, hgrest⟩ := hgiven _ rfl
    obtain ⟨hhe, hhrest⟩ := hheld _ rfl
    exact ih _ (inv_step hr e d h hge hhe) hgrest hhrest

theorem inv_fresh (hr : Resumes k wal Reads Holds Back) : Inv k wal Holds Back fresh :=
  Or.inl ⟨rfl, ⟨0, ⟨Nat.zero_le _, hr.first, rfl⟩, UInt64.le_refl _⟩, fun _ h => by cases h⟩

theorem deployed_at (hr : Resumes k wal Reads Holds Back) (happenings : List Happening)
    (hgiven : Meets (deploy k) (Given wal Reads) happenings fresh)
    (hheld : Meets (deploy k) HeldBack happenings fresh) :
    (∀ r ∈ (deployed k happenings fresh).committed.flatten, Written k r) ∧
      ∃ n, At wal Holds (deployed k happenings fresh).committed n := by
  obtain ⟨hended, hat⟩ := inv_committed hr _ (inv_run hr happenings fresh (inv_fresh hr) hgiven hheld)
  exact ⟨hended.wrote, hat⟩

end Invariant

theorem later_eq (lsn confirmed : UInt64) (h : confirmed ≤ lsn) : max lsn confirmed = lsn := by
  show (if lsn ≤ confirmed then confirmed else lsn) = lsn
  split
  · next hle => exact UInt64.le_antisymm h hle
  · rfl

theorem later_le (lsn confirmed bound : UInt64) (h : lsn ≤ bound) (h' : confirmed ≤ bound) :
    max lsn confirmed ≤ bound := by
  show (if lsn ≤ confirmed then confirmed else lsn) ≤ bound
  split
  · exact h'
  · exact h

section Exactly
variable {SerError : Type} (lib : Library SerError) (topic key : String) (wal : Wal)

/-- A read that finds the last LSN committed. -/
def LatestRead (txs : List (List Record)) (polls : List Poll) : Prop :=
  ∀ lsn, readLsn polls = some (.ok lsn) → lsn = checkpoint txs

theorem latest_resumes (k : KafkaTopics) : Resumes k wal LatestRead
    (fun rows n => rows = rowsIn (wal.txs.take n)) (fun m n => m = n) where
  first := rfl
  starts := by
    intro txs n confirmed polls lsn _ hat hconfirmed hread hlsn
    rw [hread lsn hlsn, at_checkpoint hat]
    refine ⟨n, Nat.le_refl n, rfl, ?_⟩
    rw [later_eq _ _ hconfirmed, wal.streamFrom_endOf]
  goesOn := by
    rintro rows n m part rest rfl hm rfl hpart
    rw [List.take_add, hpart, List.take_left, rowsIn_append]

theorem whole_resumes : Resumes (KafkaTopics.new topic key) wal (WholeRead lib topic)
    (fun rows n => rows = rowsIn (wal.txs.take n)) (fun m n => m = n) :=
  { latest_resumes wal (KafkaTopics.new topic key) with
    starts := by
      intro txs n confirmed polls lsn hwrote hat hconfirmed hread hlsn
      refine (latest_resumes wal _).starts txs n confirmed polls lsn hwrote hat hconfirmed ?_ hlsn
      intro lsn' hlsn'
      rw [whole_read lib topic key txs hwrote polls hread] at hlsn'
      exact (Except.ok.inj (Option.some.inj hlsn')).symm }

theorem exact_at {txs : List (List Record)} {n : ℕ}
    (h : At wal (fun rows n => rows = rowsIn (wal.txs.take n)) txs n) : ExactlyOnce wal txs := by
  rw [ExactlyOnce, at_checkpoint h, wal.upTo_endOf]
  exact h.rows

theorem committed_once {past : List (List Record)} {n : ℕ} {ts : List SourceTx} {x : SourceTx}
    {s s' : KafkaReader} (hpast : At wal (fun rows n => rows = rowsIn (wal.txs.take n)) past n)
    (horder : (ts ++ [x]).map inWal <+: wal.txs.drop n)
    (hcom : committedRows s' = committedRows s ++ pendingRows s)
    (hlast : (committedLsns s').getLast? = some x.endLsn)
    (hexact : ExactlyOnce wal (past ++ committedTxs s')) :
    (committedRows s ++ pendingRows s).length = ((ts ++ [x]).flatMap SourceTx.rows).length := by
  obtain ⟨rest, hrest⟩ := horder
  have htake : wal.txs.take (n + (ts ++ [x]).length) = wal.txs.take n ++ (ts ++ [x]).map inWal := by
    rw [List.take_add, ← hrest, List.take_left' (List.length_map _)]
  have hend : wal.endOf (n + (ts ++ [x]).length) = x.endLsn := by
    rw [Wal.endOf, htake, List.map_append, ← List.append_assoc, List.map_singleton,
      List.getLast?_concat]
    rfl
  have hcheckpoint : checkpoint (past ++ committedTxs s') = x.endLsn := by
    have hlast' : (lsnsOf (committedTxs s').flatten).getLast? = some x.endLsn := hlast
    rw [checkpoint, List.flatten_append, lsnsOf_append, List.getLast?_append, hlast']
    rfl
  have hrows : rowsOf (committedTxs s').flatten = committedRows s ++ pendingRows s := hcom
  rw [ExactlyOnce, hcheckpoint, ← hend, wal.upTo_endOf, htake, rowsIn_append, rowsIn_inWal,
    List.flatten_append, rowsOf_append, hpast.rows, List.append_cancel_left_eq, hrows] at hexact
  rw [hexact]

/-- A commit after a loss moves the checkpoint past the lost row. -/
theorem exact_heldBack (e : Happening) (d : Deployment)
    (h : Inv (KafkaTopics.new topic key) wal (fun rows n => rows = rowsIn (wal.txs.take n))
      (fun m n => m = n) d)
    (hgiven : Given wal (WholeRead lib topic) d e)
    (hexact : ExactlyOnce wal (happen (KafkaTopics.new topic key) e d).committed) : HeldBack d e := by
  cases e with
  | replication i =>
    intro r hprocess hlost
    rw [Option.mem_def] at hprocess
    by_contra hcommits
    rw [Bool.not_eq_false] at hcommits
    rcases h with h | ⟨r', n, m, s₀, done, hr', h⟩
    · rw [h.idle] at hprocess
      cases hprocess
    · obtain rfl := Option.some.inj (hprocess.symm.trans hr')
      have hreader := h.reader
      have hstream := h.stream
      obtain rfl : m = n := h.back.2
      obtain ⟨hwell, horder⟩ := hgiven r hprocess
      have hboth : step i r.reader = (step i s₀).map (Reader.map (withPast d.past)) := by
        rw [hreader]
        exact step_map (past_simulates d.past) i s₀
      have hcommits₀ : commits s₀ i = true := by
        rw [hreader] at hcommits
        exact hcommits
      obtain ⟨event, o⟩ := i
      cases event with
      | commit lsn endLsn =>
        have hs₁ : step ⟨.commit lsn endLsn, o⟩ s₀ = some (onCommit o lsn endLsn s₀) := rfl
        rw [hs₁, Option.map_some] at hboth
        obtain ⟨x, hcomplete, hreceived, hcom, hlast, _⟩ :=
          step_commits s₀ _ _ r.seen.1 hwell hcommits₀ hs₁
        rw [hcomplete, hstream] at horder
        have hlog : (happen (KafkaTopics.new topic key) (.replication ⟨.commit lsn endLsn, o⟩)
            d).committed = d.past ++ committedTxs (onCommit o lsn endLsn s₀) := by
          simp only [happen, hprocess, hboth]
          rfl
        rw [hlog] at hexact
        have hmissing := h.tracked.missing hlost
        rw [hreceived] at hmissing
        exact absurd (committed_once wal h.past horder hcom hlast hexact) (Nat.ne_of_lt hmissing)
      | _ => cases hcommits₀
  | start polls => trivial
  | confirm lsn => trivial
  | closed o => trivial
  | crash => trivial

/-- Over every run of starts, streams, failing calls and crashes, the rows
committed are in every state those up to the checkpoint, each once and in order,
exactly when no process commits after it lost a row. -/
theorem exactly_once_iff (happenings : List Happening)
    (hgiven : Meets (deploy (KafkaTopics.new topic key)) (Given wal (WholeRead lib topic))
      happenings fresh) :
    Always (deploy (KafkaTopics.new topic key)) (fun d => ExactlyOnce wal d.committed)
        happenings fresh ↔
      Meets (deploy (KafkaTopics.new topic key)) HeldBack happenings fresh := by
  have hr := whole_resumes lib topic key wal
  refine always_iff_meets (Inv (KafkaTopics.new topic key) wal
    (fun rows n => rows = rowsIn (wal.txs.take n)) (fun m n => m = n)) _ ?_ ?_ ?_ happenings fresh
    (inv_fresh hr) hgiven
  · intro d h
    obtain ⟨n, hat⟩ := (inv_committed hr d h).2
    exact exact_at wal hat
  · intro e d d' h hgiven hheld hd
    cases hd
    exact inv_step hr e d h hgiven hheld
  · intro e d d' h hgiven hd hexact
    cases hd
    exact exact_heldBack lib topic key wal e d h hgiven hexact

def FullRead (topic : String) (txs : List (List Record)) (polls : List Poll) : Prop :=
  polls = (topicRecords (topic ++ ".lsn") txs).map (fun r => .message (payloadBytes codec r.payload)) ++
    [.timeout]

instance (topic : String) (txs : List (List Record)) (polls : List Poll) :
    Decidable (FullRead topic txs polls) :=
  inferInstanceAs (Decidable (polls = _))

theorem full_is_whole (topic : String) (txs : List (List Record)) (polls : List Poll)
    (h : FullRead topic txs polls) : WholeRead codec topic txs polls := by
  refine ⟨_, [], compacts_refl _, ?_⟩
  rw [h, List.map_map]
  rfl

def insertAt (n : UInt8) (lsn endLsn : UInt64) (o : Outcomes) : List Happening :=
  [.replication ⟨.begin, {}⟩, .replication ⟨.xlogData (insertData n), o⟩,
    .replication ⟨.commit lsn endLsn, {}⟩]

def insertRow (n : UInt8) : Row :=
  (⟨1, "u", "p", [⟨true, "id", .int4⟩], .keys⟩, ⟨.insert [.int4 n.toUInt32.toInt32], 1⟩)

def twoInserts : Wal where
  txs := [⟨[insertRow 1], 10, 12⟩, ⟨[insertRow 2], 20, 23⟩]
  ends := by decide
  ordered := by decide

def announced : Happening := .replication ⟨.xlogData relationData, {}⟩

/-- A crash between the second insert and its commit, and a start after it. -/
def crashed : List Happening :=
  .start [.timeout] :: announced :: insertAt 1 10 12 {} ++
    (.confirm 10 :: (insertAt 2 20 23 {}).take 2 ++
      (.crash :: .start [.message (some [0,0,0,0,0,0,0,12]), .timeout] :: announced ::
        insertAt 2 20 23 {}))

theorem crashed_exactly_once :
    Always (deploy (KafkaTopics.new "cdc" "k")) (fun d => ExactlyOnce twoInserts d.committed)
      crashed fresh := by
  have hgiven : Meets (deploy (KafkaTopics.new "cdc" "k")) (Given twoInserts (FullRead "cdc"))
      crashed fresh := by decide +kernel
  exact (exactly_once_iff codec "cdc" "k" twoInserts crashed
    (meets_imp (given_imp twoInserts (full_is_whole "cdc")) crashed fresh hgiven)).mpr
    (by decide +kernel)

end Exactly

section AtLeast
variable (topic key : String) (wal : Wal)

/-- A read that is cut short finds an LSN from before, or none. -/
def EarlyRead (txs : List (List Record)) (polls : List Poll) : Prop :=
  ∀ lsn, readLsn polls = some (.ok lsn) → lsn ≤ checkpoint txs

/-- No row up to the checkpoint is missing, none is made up, and whoever
carries out the log and then the rows behind the checkpoint is where the rows of
the source lead. -/
structure AtLeastOnce (wal : Wal) (txs : List (List Record)) : Prop where
  complete : (rowsIn (wal.txs.filter (fun x => x.endLsn ≤ checkpoint txs))).Sublist
    (rowsOf txs.flatten)
  sound : rowsOf txs.flatten ⊆ rowsIn wal.txs
  replays : ∀ (σ : Type) (act : Row → σ → σ), LastWins ((rowsIn wal.txs).map act) → ∀ s,
    applied ((rowsIn (wal.txs.filter (fun x => checkpoint txs < x.endLsn))).map act)
        (applied ((rowsOf txs.flatten).map act) s) =
      applied ((rowsIn wal.txs).map act) s

theorem rowsIn_parts (n : ℕ) :
    rowsIn (wal.txs.take n) ++ rowsIn (wal.txs.drop n) = rowsIn wal.txs := by
  rw [← rowsIn_append, List.take_append_drop]

/-- After a read that is cut short the stream goes on further back. -/
theorem early_resumes : Resumes (KafkaTopics.new topic key) wal EarlyRead
    (fun rows n => Delivered (rowsIn wal.txs) rows (rowsIn (wal.txs.take n)).length)
    (fun _ _ => True) where
  first := .start
  starts := by
    intro txs n confirmed polls lsn _ hat hconfirmed hread hlsn
    have hle := hread lsn hlsn
    rw [at_checkpoint hat] at hle
    obtain ⟨m, hm, hstream⟩ := wal.streamFrom_before (max lsn confirmed) n hat.within
      (later_le _ _ _ hle hconfirmed)
    exact ⟨m, hm, trivial, hstream⟩
  goesOn := by
    intro rows n m part rest hrows hm _ hpart
    have hback : (rowsIn (wal.txs.take m)).length ≤ (rowsIn (wal.txs.take n)).length := by
      have hsub := (List.take_sublist_take_left hm (l := wal.txs)).flatMap WalTx.rows
      exact hsub.length_le
    have hdrop : (rowsIn wal.txs).drop (rowsIn (wal.txs.take m)).length =
        rowsIn part ++ rowsIn rest := by
      rw [← rowsIn_parts wal m, List.drop_left, hpart, rowsIn_append]
    have hforward := delivered_forward rows _ (.back rows _ _ hrows hback) _ _ hdrop
    rwa [← List.length_append, ← rowsIn_append, show wal.txs.take m ++ part =
      wal.txs.take (m + part.length) by rw [List.take_add, hpart, List.take_left]] at hforward

theorem least_at {txs : List (List Record)} {n : ℕ}
    (h : At wal (fun rows n => Delivered (rowsIn wal.txs) rows (rowsIn (wal.txs.take n)).length)
      txs n) : AtLeastOnce wal txs where
  complete := by
    rw [at_checkpoint h, wal.upTo_endOf]
    have hall := delivered_all _ _ h.rows
    rwa [← rowsIn_parts wal n, List.take_left] at hall
  sound := delivered_mem _ _ h.rows
  replays := by
    intro σ act hlast s
    have hcompletes := delivered_completes hlast _ (delivered_map act _ _ h.rows) s _ (Nat.le_refl _)
    rw [at_checkpoint h, wal.beyond_endOf]
    rwa [← List.map_drop, ← rowsIn_parts wal n, List.drop_left, rowsIn_parts wal n] at hcompletes

/-- Where reads of the LSN topic may be cut short, rows come again but none is
missing, and the tables they lead to are those of the source. -/
theorem at_least_once (happenings : List Happening)
    (hgiven : Meets (deploy (KafkaTopics.new topic key)) (Given wal EarlyRead) happenings fresh)
    (hheld : Meets (deploy (KafkaTopics.new topic key)) HeldBack happenings fresh) :
    Always (deploy (KafkaTopics.new topic key)) (fun d => AtLeastOnce wal d.committed)
      happenings fresh := by
  have hr := early_resumes topic key wal
  refine always_of_meets (Inv (KafkaTopics.new topic key) wal _ _) _ ?_ ?_ happenings fresh
    (inv_fresh hr) hgiven hheld
  · intro d h
    obtain ⟨n, hat⟩ := (inv_committed hr d h).2
    exact least_at wal hat
  · intro e d d' h hgiven hheld hd
    cases hd
    exact inv_step hr e d h hgiven hheld

theorem timeout_is_early (txs : List (List Record)) (polls : List Poll) (h : polls = [.timeout]) :
    EarlyRead txs polls := by
  subst h
  intro lsn hlsn
  cases hlsn
  exact UInt64.le_iff_toNat_le.mpr (Nat.zero_le _)

def crashedUnread : List Happening :=
  .start [.timeout] :: announced :: insertAt 1 10 12 {} ++
    (.crash :: .start [.timeout] :: announced :: insertAt 1 10 12 {} ++ insertAt 2 20 23 {})

theorem crashed_unread_at_least_once :
    Always (deploy (KafkaTopics.new "cdc" "k")) (fun d => AtLeastOnce twoInserts d.committed)
      crashedUnread fresh := by
  have hgiven : Meets (deploy (KafkaTopics.new "cdc" "k"))
      (Given twoInserts (fun _ polls => polls = [.timeout])) crashedUnread fresh := by
    decide +kernel
  exact at_least_once "cdc" "k" twoInserts crashedUnread
    (meets_imp (given_imp twoInserts timeout_is_early) crashedUnread fresh hgiven) (by decide +kernel)

end AtLeast

end CDC.ProducerRestarts
