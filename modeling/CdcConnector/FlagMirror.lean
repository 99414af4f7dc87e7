import CdcConnector.TaggedProducer

/-!
# The flag and the open transaction

The reader's flag follows the events, not the answers of the producer. It
mirrors the producer's transaction, and Kafka transactions hold one source
transaction each, exactly as long as every call that opens or closes a Kafka
transaction is heeded.
-/

set_option autoImplicit false

namespace CDC.FlagMirror
open CDC.Fallible CDC.Event CDC.Decoder CDC.RelationDecoder CDC.RowDecoder CDC.ProducerModel
open CDC.TransactionLog CDC.PartialRun CDC.WalReader CDC.SourceStream CDC.KafkaLoop
open CDC.TaggedProducer (TagReader Tagged TagProducer tagState untagged pendingTags committedTags
  relation_tagged send_tagged begin_closed_tagged begin_open_tagged commit_tagged)

def Mirrors (s : KafkaReader) : Prop := s.currentlyInTransaction = (pendingTx s).isSome

def OneSource (tx : List Tagged) : Prop := ∀ r ∈ tx, ∀ r' ∈ tx, r.1 = r'.1

/-- No Kafka transaction, committed or open, holds records of two source
transactions. -/
structure Separate (s : TagReader) : Prop where
  committed : ∀ tx ∈ committedTags s, OneSource tx
  pending : ∀ tx, pendingTags s = some tx → OneSource tx

/-- The flag mirrors the producer; source transactions are kept apart, also
when the open Kafka transaction is committed next. -/
structure Faithful (s : TagReader) : Prop where
  mirrors : Mirrors (untagged s)
  separate : Separate s
  committing : ∀ lsn endLsn, Separate (onCommit {} lsn endLsn s)

/-- The calls that open or close a Kafka transaction in this step go through.
An abort that fails before a `Begin` does no harm to an empty transaction. -/
def heeded (s : KafkaReader) (i : Step) : Bool :=
  match action s.relationMap i.event with
  | .begin =>
    if s.currentlyInTransaction then
      if i.outcomes.abortTransaction then i.outcomes.beginTransaction
      else decide (pendingTx s = some [])
    else i.outcomes.beginTransaction
  | .commit _ _ =>
    !s.currentlyInTransaction || (i.outcomes.sendLsn && i.outcomes.commitTransaction)
  | .change (.ok _) =>
    !s.currentlyInTransaction || i.outcomes.send || i.outcomes.abortTransaction
  | _ => true

structure Clean (s : TagReader) : Prop where
  mirror : s.currentlyInTransaction = (pendingTags s).isSome
  committed : ∀ tx ∈ committedTags s, OneSource tx
  own : ∀ tx, pendingTags s = some tx → ∀ r ∈ tx, r.1 = s.producer.starts

theorem clean_init (topic key : String) : Clean (TaggedProducer.start topic key) where
  mirror := rfl
  committed _ h := nomatch h
  own _ h := nomatch h

theorem clean_state (s : TagReader) (h : Clean s) :
    (∃ map k n c ap, s = tagState map false k n none c ap) ∨
      ∃ map k n buf c ap, s = tagState map true k n (some buf) c ap := by
  obtain ⟨map, flag, ⟨k, n, ⟨pending, c⟩⟩, ap⟩ := s
  have hflag : flag = pending.isSome := h.mirror
  subst hflag
  cases pending with
  | none => exact Or.inl ⟨map, k, n, c, ap, rfl⟩
  | some buf => exact Or.inr ⟨map, k, n, buf, c, ap, rfl⟩

theorem oneSource_of_own {n : ℕ} {tx : List Tagged} (h : ∀ r ∈ tx, r.1 = n) : OneSource tx :=
  fun r hr r' hr' => (h r hr).trans (h r' hr').symm

theorem own_append {n : ℕ} {tx : List Tagged} (h : ∀ r ∈ tx, r.1 = n) (x : Record) :
    ∀ r ∈ tx ++ [(n, x)], r.1 = n := by
  intro r hr
  rcases List.mem_append.mp hr with hr | hr
  · exact h r hr
  · rw [List.mem_singleton.mp hr]

theorem relation_clean (o : Outcomes) (rd : RelationData) (s : TagReader) (h : Clean s) :
    Clean (onRelationMessage o rd s) := by
  have hc := h.committed
  have hown := h.own
  rcases clean_state s h with ⟨map, k, n, c, ap, rfl⟩ | ⟨map, k, n, buf, c, ap, rfl⟩
  · rw [relation_tagged]
    exact ⟨rfl, hc, fun tx htx => by cases htx⟩
  · rw [relation_tagged]
    refine ⟨rfl, hc, fun tx htx => ?_⟩
    cases htx
    cases o.sendRelation with
    | false => exact hown buf rfl
    | true => exact own_append (hown buf rfl) _

theorem change_clean (o : Outcomes) (result : Decoded (ChangeEvent × RelationData))
    (s s' : TagReader) (h : Clean s)
    (hheed : ∀ r, result = .ok r → s.currentlyInTransaction = true →
      o.send = true ∨ o.abortTransaction = true)
    (hs : onChange o result s = some s') : Clean s' := by
  have hc := h.committed
  have hown := h.own
  rcases onChange_cases o result s s' hs with
    ⟨_, rfl⟩ | ⟨_, _, rfl⟩ | ⟨hflag, event, rd, rfl, rfl⟩
  · exact h
  · exact h
  · rcases clean_state s h with ⟨map, k, n, c, ap, rfl⟩ | ⟨map, k, n, buf, c, ap, rfl⟩
    · cases hflag
    · rw [send_tagged]
      cases hsend : o.send with
      | true =>
        rw [if_pos rfl]
        refine ⟨rfl, hc, fun tx htx => ?_⟩
        cases htx
        exact own_append (hown buf rfl) _
      | false =>
        have ha : o.abortTransaction = true := by simpa [hsend] using hheed _ rfl rfl
        rw [if_neg (by simp), if_pos ha]
        exact ⟨rfl, hc, fun tx htx => by cases htx⟩

theorem begin_clean (o : Outcomes) (s : TagReader) (h : Clean s)
    (hheed : if s.currentlyInTransaction then
        (if o.abortTransaction then o.beginTransaction = true else pendingTags s = some [])
      else o.beginTransaction = true) : Clean (onBegin o s) := by
  have hc := h.committed
  have hopened : ∃ map k n c ap, onBegin o s = tagState map true k n (some []) c ap ∧
      committedTags s = c := by
    rcases clean_state s h with ⟨map, k, n, c, ap, rfl⟩ | ⟨map, k, n, buf, c, ap, rfl⟩
    · have hb : o.beginTransaction = true := hheed
      exact ⟨map, k, n+1, c, ap, by rw [begin_closed_tagged, if_pos hb], rfl⟩
    · refine ⟨map, k, n+1, c, ap, ?_, rfl⟩
      rw [begin_open_tagged]
      cases ha : o.abortTransaction with
      | true =>
        have hb : o.beginTransaction = true := by simpa [ha] using hheed
        rw [if_pos rfl, if_pos hb]
      | false =>
        have hempty : buf = [] := by simpa [ha, pendingTags] using hheed
        rw [if_neg (by simp), hempty]
  obtain ⟨map, k, n, c, ap, heq, rfl⟩ := hopened
  rw [heq]
  refine ⟨rfl, hc, fun tx htx => ?_⟩
  cases htx
  exact fun r hr => by cases hr

theorem commit_clean (o : Outcomes) (lsn endLsn : UInt64) (s : TagReader) (h : Clean s)
    (hheed : s.currentlyInTransaction = true →
      o.sendLsn = true ∧ o.commitTransaction = true) : Clean (onCommit o lsn endLsn s) := by
  have hc := h.committed
  have hown := h.own
  rcases clean_state s h with ⟨map, k, n, c, ap, rfl⟩ | ⟨map, k, n, buf, c, ap, rfl⟩
  · exact h
  · obtain ⟨hl, hcommit⟩ := hheed rfl
    rw [commit_tagged, if_pos hl, if_pos hcommit]
    refine ⟨rfl, fun tx htx => ?_, fun tx htx => by cases htx⟩
    rcases List.mem_append.mp htx with htx | htx
    · exact hc tx htx
    · rw [List.mem_singleton.mp htx]
      exact oneSource_of_own (own_append (hown buf rfl) _)

theorem untagged_empty (s : TagReader) :
    pendingTx (untagged s) = some [] ↔ pendingTags s = some [] := by
  simp [pendingTx, pendingTags, untagged, Reader.map, TagProducer.erase, Log.map]

theorem clean_separate (s : TagReader) (h : Clean s) : Separate s :=
  ⟨h.committed, fun tx htx => oneSource_of_own (h.own tx htx)⟩

theorem clean_faithful (s : TagReader) (h : Clean s) : Faithful s where
  mirrors := by
    rw [Mirrors]
    refine h.mirror.trans ?_
    simp [untagged, Reader.map, pendingTx, pendingTags, TagProducer.erase, Log.map]
  separate := clean_separate s h
  committing lsn endLsn :=
    clean_separate _ (commit_clean {} lsn endLsn s h (fun _ => ⟨rfl, rfl⟩))

theorem clean_step (i : Step) (s s' : TagReader) (h : Clean s)
    (hheed : heeded (untagged s) i = true) (hs : step i s = some s') : Clean s' := by
  simp only [heeded, show (untagged s).relationMap = s.relationMap from rfl,
    show (untagged s).currentlyInTransaction = s.currentlyInTransaction from rfl] at hheed
  rcases step_cases i s s' hs with
    ⟨_, rfl⟩ | ⟨rd, _, rfl⟩ | ⟨result, ha, hs⟩ | ⟨ha, rfl⟩ | ⟨lsn, endLsn, ha, rfl⟩
  · exact h
  · exact relation_clean i.outcomes rd s h
  · rw [ha] at hheed
    refine change_clean i.outcomes result s s' h ?_ hs
    rintro r rfl hflag
    simpa [hflag] using hheed
  · simp only [ha] at hheed
    refine begin_clean i.outcomes s h ?_
    split_ifs at hheed ⊢
    · exact hheed
    · exact (untagged_empty s).mp (of_decide_eq_true hheed)
    · exact hheed
  · simp only [ha] at hheed
    refine commit_clean i.outcomes lsn endLsn s h (fun hflag => ?_)
    simpa [hflag] using hheed

theorem change_heeded (o : Outcomes) (result : Decoded (ChangeEvent × RelationData))
    (s s' : TagReader) (h : Clean s) (hs : onChange o result s = some s') (hf : Faithful s')
    (hok : result.isOk = true) :
    (!s.currentlyInTransaction || o.send || o.abortTransaction) = true := by
  rcases onChange_cases o result s s' hs with
    ⟨hflag, _⟩ | ⟨_, ⟨e, rfl⟩, _⟩ | ⟨hflag, event, rd, rfl, rfl⟩
  · rw [hflag]
    rfl
  · cases hok
  · rcases clean_state s h with ⟨map, k, n, c, ap, rfl⟩ | ⟨map, k, n, buf, c, ap, rfl⟩
    · cases hflag
    · rw [send_tagged] at hf
      by_contra hfail
      simp only [Bool.not_true, Bool.false_or, Bool.or_eq_true, not_or, Bool.not_eq_true] at hfail
      rw [hfail.1, hfail.2] at hf
      cases hf.mirrors

theorem begin_heeded (o : Outcomes) (s : TagReader) (h : Clean s) (hf : Faithful (onBegin o s)) :
    (if s.currentlyInTransaction then
        (if o.abortTransaction then o.beginTransaction else decide (pendingTags s = some []))
      else o.beginTransaction) = true := by
  have hown := h.own
  rcases clean_state s h with ⟨map, k, n, c, ap, rfl⟩ | ⟨map, k, n, buf, c, ap, rfl⟩
  · rw [begin_closed_tagged] at hf
    by_contra hfail
    have hb : o.beginTransaction = false := by simpa using hfail
    rw [hb] at hf
    cases hf.mirrors
  · rw [begin_open_tagged] at hf
    cases ha : o.abortTransaction with
    | true =>
      by_contra hfail
      have hb : o.beginTransaction = false := by simpa using hfail
      rw [ha, hb] at hf
      cases hf.mirrors
    | false =>
      rw [ha, if_neg (by simp)] at hf
      have hmixed := hf.committing 0 0
      rw [commit_tagged, if_pos rfl, if_pos rfl] at hmixed
      have hone := hmixed.committed (buf ++ [(n+1, k.lsnRecord 0)]) (by simp [committedTags])
      have hempty : buf = [] := by
        rw [List.eq_nil_iff_forall_not_mem]
        intro r hr
        have hn := hown buf rfl r hr
        have hnext := hone r (by simp [hr]) (n+1, k.lsnRecord 0) (by simp)
        dsimp only at hn hnext
        omega
      simp [pendingTags, hempty]

theorem commit_heeded (o : Outcomes) (lsn endLsn : UInt64) (s : TagReader) (h : Clean s)
    (hf : Faithful (onCommit o lsn endLsn s)) :
    (!s.currentlyInTransaction || (o.sendLsn && o.commitTransaction)) = true := by
  rcases clean_state s h with ⟨map, k, n, c, ap, rfl⟩ | ⟨map, k, n, buf, c, ap, rfl⟩
  · rfl
  · rw [commit_tagged] at hf
    cases hl : o.sendLsn with
    | false =>
      rw [hl] at hf
      cases hf.mirrors
    | true =>
      cases hc : o.commitTransaction with
      | false =>
        rw [hl, hc] at hf
        cases hf.mirrors
      | true => rfl

theorem faithful_heeded (i : Step) (s s' : TagReader) (h : Clean s) (hs : step i s = some s')
    (hf : Faithful s') : heeded (untagged s) i = true := by
  simp only [heeded, show (untagged s).relationMap = s.relationMap from rfl,
    show (untagged s).currentlyInTransaction = s.currentlyInTransaction from rfl]
  rcases step_cases i s s' hs with
    ⟨ha, _⟩ | ⟨rd, ha, _⟩ | ⟨result, ha, hs⟩ | ⟨ha, rfl⟩ | ⟨lsn, endLsn, ha, rfl⟩ <;>
    simp only [ha]
  · cases result with
    | ok r => exact change_heeded i.outcomes (.ok r) s s' h hs hf rfl
    | error e => rfl
  · simp only [decide_eq_decide.mpr (untagged_empty s)]
    exact begin_heeded i.outcomes s h hf
  · exact commit_heeded i.outcomes lsn endLsn s h hf

/-- Over every run and every pattern of failing calls, the flag mirrors the
producer in every state and no Kafka transaction ever holds two source
transactions exactly when every opening and closing call is heeded. -/
theorem faithful_iff_heeded (topic key : String) (steps : List Step) :
    (∀ pre post s, steps = pre ++ post →
        run step pre (TaggedProducer.start topic key) = some s → Faithful s) ↔
      Meets step (fun s i => heeded (untagged s) i = true) steps
        (TaggedProducer.start topic key) := by
  rw [← always_iff_reached]
  exact always_iff_meets Clean Faithful clean_faithful
    (fun i s t h _ hh hs => clean_step i s t h hh hs)
    (fun i s t h _ hs hf => faithful_heeded i s t h hs hf)
    steps _ (clean_init topic key)
    (meets_of_forall steps (TaggedProducer.start topic key) (fun (_ : Step) _ => trivial))

/-- The first commit fails and leaves its Kafka transaction open; the second
source transaction goes into it. -/
def failedCommit : List Step :=
  [⟨.begin, {}⟩, ⟨.xlogData relationData, {}⟩, ⟨.xlogData (insertData 1), {}⟩,
    ⟨.commit 1 1, { commitTransaction := false }⟩] ++ insertTx 2 {}

theorem failed_commit_is_shared :
    (∃ s, run step (failedCommit.take 4) (KafkaLoop.start "cdc" "k") = some s ∧ ¬ Mirrors s) ∧
      ∃ s, run step failedCommit (TaggedProducer.start "cdc" "k") = some s ∧ ¬ Separate s := by
  constructor
  · exact ⟨(run step (failedCommit.take 4) (KafkaLoop.start "cdc" "k")).get (by decide),
      (Option.some_get _).symm, by unfold Mirrors; decide⟩
  · refine ⟨(run step failedCommit (TaggedProducer.start "cdc" "k")).get (by decide),
      (Option.some_get _).symm, fun h => ?_⟩
    have hone := h.committed _ (List.mem_of_getElem? (i := 0) rfl)
    exact absurd hone (by unfold OneSource; decide)

end CDC.FlagMirror
