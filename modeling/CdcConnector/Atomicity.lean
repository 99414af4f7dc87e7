import CdcConnector.KafkaLoop

/-!
# Atomicity under failing sends

When opening, committing and aborting succeed, every committed Kafka
transaction is one complete source transaction with all its row changes and
its own end LSN. The ones missing are those with a failed send. Row messages
that do not decode count for nothing here.
-/

set_option autoImplicit false

namespace CDC.Atomicity
open CDC.Fallible CDC.Event CDC.Decoder CDC.RelationDecoder CDC.RowDecoder CDC.ProducerModel
open CDC.TransactionLog CDC.PartialRun CDC.WalReader CDC.SourceStream CDC.KafkaLoop

def contents (tx : List Record) : List Row × List UInt64 := (rowsOf tx, lsnsOf tx)

def sourceContents (t : SourceTx) : List Row × List UInt64 := (t.rows, [t.endLsn])

/-- Inside a transaction the open Kafka transaction holds what the source has
sent so far; outside, none is open and the source transaction, if there is
one, has already lost a send. -/
def Tied (flag : Bool) (pending : Option (List Record)) (current : Option (List Change)) : Prop :=
  match flag, pending, current with
  | true, some buf, some cs => sent cs = true ∧ rowsOf buf = rows cs ∧ lsnsOf buf = []
  | false, none, some cs => sent cs = false
  | false, none, none => True
  | _, _, _ => False

structure Atomic (s : KafkaReader) (t : Source) : Prop where
  sync : s.relationMap = t.relationMap
  log : (committedTxs s).map contents = (t.complete.filter SourceTx.sent).map sourceContents
  applied : s.applied = (t.complete.filter SourceTx.sent).map SourceTx.lsn
  tied : Tied s.currentlyInTransaction (pendingTx s) t.current

theorem tied_inside {pending : Option (List Record)} {current : Option (List Change)}
    (h : Tied true pending current) : ∃ buf cs, pending = some buf ∧ current = some cs ∧
      sent cs = true ∧ rowsOf buf = rows cs ∧ lsnsOf buf = [] := by
  match pending, current, h with
  | some buf, some cs, h => exact ⟨buf, cs, rfl, rfl, h⟩

theorem tied_outside {pending : Option (List Record)} {current : Option (List Change)}
    (h : Tied false pending current) :
    pending = none ∧ ∀ cs, current = some cs → sent cs = false := by
  match pending, current, h with
  | none, some cs, h => exact ⟨rfl, fun _ hcs => Option.some.inj hcs ▸ h⟩
  | none, none, _ => exact ⟨rfl, fun _ hcs => nomatch hcs⟩

theorem atomic_init (topic key : String) : Atomic (start topic key) Source.init :=
  ⟨rfl, rfl, rfl, trivial⟩

structure Quiet (s s' : KafkaReader) (current : Option (List Change)) : Prop where
  log : committedTxs s' = committedTxs s
  applied : s'.applied = s.applied
  tied : Tied s'.currentlyInTransaction (pendingTx s') current

theorem relation_quiet (o : Outcomes) (rd : RelationData) (s : KafkaReader)
    (current : Option (List Change)) (h : Tied s.currentlyInTransaction (pendingTx s) current) :
    Quiet s (onRelationMessage o rd s) current := by
  obtain ⟨map, flag, ⟨k, ⟨pending, c⟩⟩, ap⟩ := s
  cases flag with
  | false =>
    obtain ⟨rfl, _⟩ := tied_outside h
    exact ⟨by simp, by simp, by simpa using h⟩
  | true =>
    obtain ⟨buf, cs, rfl, rfl, hs, hr, hl⟩ := tied_inside h
    refine ⟨by simp, by simp, ?_⟩
    cases hsend : o.sendRelation <;> simp [Tied, hs, hr, hl, hsend]

theorem change_quiet (o : Outcomes) (ho : o.abortTransaction = true)
    (result : Decoded (ChangeEvent × RelationData)) (s s' : KafkaReader)
    (current : Option (List Change)) (h : Tied s.currentlyInTransaction (pendingTx s) current)
    (hs : onChange o result s = some s') :
    Quiet s s' (current.map (· ++ [⟨result, o.send || !result.isOk⟩])) := by
  obtain ⟨map, flag, ⟨k, ⟨pending, c⟩⟩, ap⟩ := s
  rcases onChange_cases o result _ s' hs with
    ⟨hflag, rfl⟩ | ⟨hflag, ⟨e, rfl⟩, rfl⟩ | ⟨hflag, event, rd, rfl, rfl⟩ <;> cases hflag
  · obtain ⟨rfl, hunsent⟩ := tied_outside h
    refine ⟨rfl, rfl, ?_⟩
    cases current with
    | none => trivial
    | some cs => simp [Tied, hunsent cs rfl]
  · obtain ⟨buf, cs, rfl, rfl, hsent, hr, hl⟩ := tied_inside h
    exact ⟨rfl, rfl, by simp [Tied, hsent, hr, hl, Except.isOk, Except.toBool]⟩
  · obtain ⟨buf, cs, rfl, rfl, hsent, hr, hl⟩ := tied_inside h
    rw [send_open]
    cases hsend : o.send with
    | true => exact ⟨by simp, by simp, by simp [Tied, hsent, hr, hl]⟩
    | false => exact ⟨by simp, by simp, by simp [Tied, ho, Except.isOk, Except.toBool]⟩

theorem begin_quiet (o : Outcomes) (ho : Calm o) (s : KafkaReader)
    (current : Option (List Change)) (h : Tied s.currentlyInTransaction (pendingTx s) current) :
    Quiet s (onBegin o s) (some []) := by
  obtain ⟨hb, _, _, ha⟩ := ho
  obtain ⟨map, flag, ⟨k, ⟨pending, c⟩⟩, ap⟩ := s
  cases flag with
  | false =>
    obtain ⟨rfl, _⟩ := tied_outside h
    exact ⟨by simp, by simp, by simp [Tied, hb, sent]⟩
  | true =>
    obtain ⟨buf, cs, rfl, rfl, _⟩ := tied_inside h
    exact ⟨by simp, by simp, by simp [Tied, hb, ha, sent]⟩

theorem commit_atomic (o : Outcomes) (ho : Calm o) (lsn endLsn : UInt64) (s : KafkaReader)
    (t : Source) (h : Atomic s t) :
    Atomic (onCommit o lsn endLsn s) (t.observeAction o (.commit lsn endLsn)) := by
  obtain ⟨_, hl, hc, _⟩ := ho
  obtain ⟨map, flag, ⟨k, ⟨pending, c⟩⟩, ap⟩ := s
  obtain ⟨tmap, current, complete⟩ := t
  obtain ⟨hsync, hlog, hap, htied⟩ := h
  cases flag with
  | false =>
    obtain ⟨rfl, hunsent⟩ := tied_outside htied
    cases current with
    | none => exact ⟨hsync, hlog, hap, htied⟩
    | some cs =>
      have hskip : ([⟨cs, lsn, endLsn⟩] : List SourceTx).filter SourceTx.sent = [] := by
        simp [SourceTx.sent, hunsent cs rfl]
      rw [commit_skipped]
      refine ⟨hsync, ?_, ?_, trivial⟩
      · simpa [Source.observeAction, List.filter_append, hskip] using hlog
      · simpa [Source.observeAction, List.filter_append, hskip] using hap
  | true =>
    obtain ⟨buf, cs, rfl, hcur, hsent, hrows, hlsns⟩ := tied_inside htied
    dsimp only at hcur
    subst hcur
    have hkeep : ([⟨cs, lsn, endLsn⟩] : List SourceTx).filter SourceTx.sent = [⟨cs, lsn, endLsn⟩] := by
      simp [SourceTx.sent, hsent]
    have hbuf : contents (buf ++ [k.lsnRecord endLsn]) = sourceContents ⟨cs, lsn, endLsn⟩ := by
      simp [contents, sourceContents, SourceTx.rows, hrows, hlsns]
    rw [commit_open, if_pos hl, if_pos hc]
    dsimp only at hap
    simp only [committedTxs_state] at hlog
    refine ⟨hsync, ?_, ?_, trivial⟩
    · simp [Source.observeAction, List.filter_append, hkeep, hbuf, hlog]
    · simp [Source.observeAction, List.filter_append, hkeep, hap]

theorem quiet_atomic (s s' : KafkaReader) (t t' : Source) (h : Atomic s t)
    (hsync : s'.relationMap = t'.relationMap) (hcomplete : t'.complete = t.complete)
    (hq : Quiet s s' t'.current) : Atomic s' t' :=
  ⟨hsync, by rw [hq.log, hcomplete, h.log], by rw [hq.applied, hcomplete, h.applied], hq.tied⟩

theorem atomic_step (i : Step) (s : KafkaReader) (t : Source) (s' : KafkaReader)
    (h : Atomic s t) (ho : Calm i.outcomes) (hs : step i s = some s') : Atomic s' (t.observe i) := by
  have hsync := sync_step i s s' t h.sync hs
  unfold Source.observe at hsync ⊢
  rw [← h.sync] at hsync ⊢
  rcases step_cases i s s' hs with
    ⟨ha, rfl⟩ | ⟨rd, ha, rfl⟩ | ⟨result, ha, hs⟩ | ⟨ha, rfl⟩ | ⟨lsn, endLsn, ha, rfl⟩ <;>
    rw [ha] at hsync ⊢
  · exact h
  · exact quiet_atomic _ _ _ _ h hsync rfl (relation_quiet i.outcomes rd s _ h.tied)
  · exact quiet_atomic _ _ _ _ h hsync rfl (change_quiet i.outcomes ho.2.2.2 result s s' _ h.tied hs)
  · exact quiet_atomic _ _ _ _ h hsync rfl (begin_quiet i.outcomes ho s _ h.tied)
  · exact commit_atomic i.outcomes ho lsn endLsn s t h

theorem atomic_run (topic key : String) (steps : List Step)
    (hcalm : ∀ i ∈ steps, Calm i.outcomes) (s : KafkaReader)
    (hrun : run step steps (start topic key) = some s) : Atomic s (sourceOf steps) :=
  run_source (fun i s t s' h hc hs => atomic_step i s t s' h hc hs) _ (atomic_init topic key)
    steps (meets_of_forall steps _ hcalm) s hrun

/-- The committed log after any run in which only sends fail, and after the
connection is closed: one Kafka transaction for each complete source
transaction whose sends all succeeded, in stream order, with a row for every
one of its row messages. -/
theorem committed_is_atomic (topic key : String) (steps : List Step)
    (hcalm : ∀ i ∈ steps, Calm i.outcomes) (hdec : Throughout rowDecodes steps)
    (s : KafkaReader) (hrun : run step steps (start topic key) = some s) :
    (committedTxs s).map contents =
        ((sourceOf steps).complete.filter SourceTx.sent).map sourceContents ∧
      (∀ t ∈ (sourceOf steps).complete, t.rows.map some = t.changes.map Change.row?) ∧
      ∀ o, committedTxs (close o s) = committedTxs s := by
  have hatomic := atomic_run topic key steps hcalm s hrun
  exact ⟨hatomic.log, fun t ht => rows_of_decodes t.changes (decodes_throughout steps hdec t ht),
    fun o => (close_committed o s).1⟩

def interrupted : List Step :=
  ⟨.xlogData relationData, {}⟩ :: insertTx 1 { send := false } ++
    (insertTx 2 {}).take 2 ++ insertTx 3 {}

theorem interrupted_is_atomic :
    ∃ s, run step interrupted (start "cdc" "k") = some s ∧
      (committedTxs s).map contents =
        ((sourceOf interrupted).complete.filter SourceTx.sent).map sourceContents := by
  let s := (run step interrupted (start "cdc" "k")).get (by decide)
  have hrun : run step interrupted (start "cdc" "k") = some s := (Option.some_get _).symm
  have hcalm : ∀ i ∈ interrupted, Calm i.outcomes := by
    simp [interrupted, insertTx, Calm]
  exact ⟨s, hrun, (committed_is_atomic "cdc" "k" interrupted hcalm (by decide) s hrun).1⟩

end CDC.Atomicity
