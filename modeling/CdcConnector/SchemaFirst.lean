import CdcConnector.KafkaLoop

/-!
# Relations before rows

A row is decoded with an entry of the local relation map. The entry outlives
the Kafka transaction that was to publish it, and is there even when its
publication failed. Committed rows have committed relations exactly as long as
rows go out with published entries only.
-/

set_option autoImplicit false

namespace CDC.SchemaFirst
open CDC.Fallible CDC.Event CDC.Decoder CDC.RelationDecoder CDC.RowDecoder CDC.ProducerModel
open CDC.TransactionLog CDC.PartialRun CDC.WalReader CDC.SourceStream CDC.KafkaLoop

/-- The relation of every row is in the same or an earlier transaction. -/
def RelationsFirst (txs : List (List Record)) : Prop :=
  ∀ pre tx post, txs = pre ++ tx :: post →
    ∀ row ∈ rowsOf tx, row.1 ∈ relationsOf (pre.flatten ++ tx)

theorem relationsFirst_append (txs : List (List Record)) (tx : List Record) :
    RelationsFirst (txs ++ [tx]) ↔
      RelationsFirst txs ∧ ∀ row ∈ rowsOf tx, row.1 ∈ relationsOf (txs.flatten ++ tx) := by
  constructor
  · intro h
    refine ⟨fun pre t post he => ?_, h txs tx [] rfl⟩
    exact h pre t (post ++ [tx]) (by rw [he, List.append_assoc, List.cons_append])
  · rintro ⟨hold, hnew⟩ pre t post he
    rcases List.eq_nil_or_concat' post with rfl | ⟨post, x, rfl⟩
    · obtain ⟨rfl, htx⟩ := List.append_inj' he rfl
      cases htx
      exact hnew
    · rw [← List.cons_append, ← List.append_assoc] at he
      obtain ⟨rfl, _⟩ := List.append_inj' he rfl
      exact hold pre t post rfl

def published (s : KafkaReader) (relation : Relation) : Bool :=
  decide (relation ∈ relationsOf ((committedTxs s).flatten ++ (pendingTx s).getD []))

/-- A row that goes out in this step is decoded with a published relation. -/
def announced (s : KafkaReader) (i : Step) : Bool :=
  match action s.relationMap i.event with
  | .change (.ok (_, rd)) => !(s.currentlyInTransaction && i.outcomes.send) || published s rd.inner
  | _ => true

/-- The committed log has its relations first, and so it has if the open
transaction is committed next. -/
def Orderly (s : KafkaReader) : Prop :=
  RelationsFirst (committedTxs s) ∧
    ∀ lsn endLsn, RelationsFirst (committedTxs (onCommit {} lsn endLsn s))

structure Ordered (s : KafkaReader) : Prop where
  mirror : s.currentlyInTransaction = (pendingTx s).isSome
  first : RelationsFirst (committedTxs s)
  ready : ∀ buf, pendingTx s = some buf →
    ∀ row ∈ rowsOf buf, row.1 ∈ relationsOf ((committedTxs s).flatten ++ buf)

theorem ordered_init (topic key : String) : Ordered (start topic key) where
  mirror := rfl
  first pre tx post h := by simp [start, committedTxs, Reader.init, KafkaProducer.new, Log.empty] at h
  ready buf h := nomatch h

theorem ordered_state (s : KafkaReader) (h : Ordered s) :
    (∃ map k c ap, s = state map false k none c ap) ∨
      ∃ map k buf c ap, s = state map true k (some buf) c ap := by
  obtain ⟨map, flag, ⟨k, ⟨pending, c⟩⟩, ap⟩ := s
  have hflag : flag = pending.isSome := h.mirror
  subst hflag
  cases pending with
  | none => exact Or.inl ⟨map, k, c, ap, rfl⟩
  | some buf => exact Or.inr ⟨map, k, buf, c, ap, rfl⟩

theorem commit_first (s : KafkaReader) (h : Ordered s) (o : Outcomes) (lsn endLsn : UInt64) :
    RelationsFirst (committedTxs (onCommit o lsn endLsn s)) := by
  have hfirst := h.first
  have hready := h.ready
  rcases ordered_state s h with ⟨map, k, c, ap, rfl⟩ | ⟨map, k, buf, c, ap, rfl⟩
  · exact hfirst
  · rw [commit_open]
    cases o.sendLsn <;> cases o.commitTransaction
    case true.true =>
      refine (relationsFirst_append _ _).mpr ⟨hfirst, fun row hrow => ?_⟩
      have := hready buf rfl row (by simpa using hrow)
      simpa using this
    all_goals exact hfirst

theorem ordered_orderly (s : KafkaReader) (h : Ordered s) : Orderly s :=
  ⟨h.first, commit_first s h {}⟩

theorem relation_ordered (o : Outcomes) (rd : RelationData) (s : KafkaReader) (h : Ordered s) :
    Ordered (onRelationMessage o rd s) := by
  have hfirst := h.first
  have hready := h.ready
  rcases ordered_state s h with ⟨map, k, c, ap, rfl⟩ | ⟨map, k, buf, c, ap, rfl⟩
  · rw [relation_closed]
    exact ⟨rfl, hfirst, fun buf hbuf => by cases hbuf⟩
  · rw [relation_open]
    refine ⟨rfl, hfirst, fun buf' hbuf row hrow => ?_⟩
    cases hbuf
    cases hsend : o.sendRelation with
    | false =>
      rw [hsend] at hrow
      exact hready buf rfl row hrow
    | true =>
      simp only [hsend, if_true, rowsOf_append, rowsOf_relation, rowsOf_nil,
        List.append_nil] at hrow
      have := hready buf rfl row hrow
      simp only [committedTxs_state, if_true, relationsOf_append, List.mem_append] at this ⊢
      tauto

theorem change_ordered (o : Outcomes) (ho : Calm o)
    (result : Decoded (ChangeEvent × RelationData)) (s s' : KafkaReader) (h : Ordered s)
    (hpub : ∀ event rd, result = .ok (event, rd) → s.currentlyInTransaction = true →
      o.send = true → published s rd.inner = true)
    (hs : onChange o result s = some s') : Ordered s' := by
  have hfirst := h.first
  have hready := h.ready
  rcases onChange_cases o result s s' hs with
    ⟨_, rfl⟩ | ⟨_, _, rfl⟩ | ⟨hflag, event, rd, rfl, rfl⟩
  · exact h
  · exact h
  · rcases ordered_state s h with ⟨map, k, c, ap, rfl⟩ | ⟨map, k, buf, c, ap, rfl⟩
    · cases hflag
    · rw [send_open]
      cases hsend : o.send with
      | false =>
        rw [if_neg (by simp), if_pos ho.2.2.2]
        exact ⟨rfl, hfirst, fun buf hbuf => by cases hbuf⟩
      | true =>
        rw [if_pos rfl]
        refine ⟨rfl, hfirst, fun buf' hbuf row hrow => ?_⟩
        cases hbuf
        rw [rowsOf_append, rowsOf_event, rowsOf_nil, List.mem_append, List.mem_singleton] at hrow
        rw [← List.append_assoc, relationsOf_append, relationsOf_event, relationsOf_nil,
          List.append_nil]
        rcases hrow with hrow | rfl
        · exact hready buf rfl row hrow
        · simpa [published] using hpub event rd rfl rfl hsend

theorem begin_ordered (o : Outcomes) (ho : Calm o) (s : KafkaReader) (h : Ordered s) :
    Ordered (onBegin o s) := by
  have hfirst := h.first
  obtain ⟨hb, _, _, ha⟩ := ho
  have hopened : ∃ map k c ap, onBegin o s = state map true k (some []) c ap ∧
      committedTxs s = c := by
    rcases ordered_state s h with ⟨map, k, c, ap, rfl⟩ | ⟨map, k, buf, c, ap, rfl⟩
    · exact ⟨map, k, c, ap, by simp [hb], rfl⟩
    · exact ⟨map, k, c, ap, by simp [hb, ha], rfl⟩
  obtain ⟨map, k, c, ap, heq, rfl⟩ := hopened
  rw [heq]
  refine ⟨rfl, hfirst, fun buf hbuf row hrow => ?_⟩
  cases hbuf
  cases hrow

theorem commit_ordered (o : Outcomes) (ho : Calm o) (lsn endLsn : UInt64) (s : KafkaReader)
    (h : Ordered s) : Ordered (onCommit o lsn endLsn s) := by
  have hfirst := commit_first s h o lsn endLsn
  obtain ⟨_, hl, hc, _⟩ := ho
  rcases ordered_state s h with ⟨map, k, c, ap, rfl⟩ | ⟨map, k, buf, c, ap, rfl⟩
  · exact h
  · rw [commit_open, if_pos hl, if_pos hc] at hfirst ⊢
    exact ⟨rfl, hfirst, fun buf hbuf => by cases hbuf⟩

theorem ordered_step (i : Step) (s s' : KafkaReader) (h : Ordered s) (ho : Calm i.outcomes)
    (hpub : announced s i = true) (hs : step i s = some s') : Ordered s' := by
  unfold announced at hpub
  rcases step_cases i s s' hs with
    ⟨_, rfl⟩ | ⟨rd, _, rfl⟩ | ⟨result, ha, hs⟩ | ⟨_, rfl⟩ | ⟨lsn, endLsn, _, rfl⟩
  · exact h
  · exact relation_ordered i.outcomes rd s h
  · rw [ha] at hpub
    refine change_ordered i.outcomes ho result s s' h ?_ hs
    rintro event rd rfl hflag hsend
    simpa [hflag, hsend] using hpub
  · exact begin_ordered i.outcomes ho s h
  · exact commit_ordered i.outcomes ho lsn endLsn s h

/-- A row that goes out unannounced is one commit away from breaking the order. -/
theorem orderly_announced (i : Step) (s s' : KafkaReader) (h : Ordered s)
    (hs : step i s = some s') (ho : Orderly s') : announced s i = true := by
  unfold announced
  rcases step_cases i s s' hs with
    ⟨ha, _⟩ | ⟨rd, ha, _⟩ | ⟨result, ha, hs⟩ | ⟨ha, _⟩ | ⟨lsn, endLsn, ha, _⟩ <;> rw [ha]
  rcases onChange_cases i.outcomes result s s' hs with
    ⟨hflag, _⟩ | ⟨_, ⟨e, rfl⟩, _⟩ | ⟨hflag, event, rd, rfl, rfl⟩
  · cases result <;> simp [hflag]
  · rfl
  · rcases ordered_state s h with ⟨map, k, c, ap, rfl⟩ | ⟨map, k, buf, c, ap, rfl⟩
    · cases hflag
    · by_contra hstray
      simp only [Bool.or_eq_true, Bool.not_eq_true', Bool.true_and, not_or,
        Bool.not_eq_false] at hstray
      obtain ⟨hsend, hpub⟩ := hstray
      rw [send_open, if_pos hsend] at ho
      have hcommit := ho.2 0 0
      rw [commit_open, if_pos rfl, if_pos rfl] at hcommit
      have hmem := ((relationsFirst_append _ _).mp hcommit).2 (rd.inner, event) (by simp)
      exact hpub (by simpa [published] using hmem)

/-- Over every run in which only row and relation sends fail, the relations
come first in every state, and in every state a commit leads to, exactly when
rows only go out with published relations. -/
theorem schema_first_iff_announced (topic key : String) (steps : List Step)
    (ho : ∀ i ∈ steps, Calm i.outcomes) :
    (∀ pre post s, steps = pre ++ post → run step pre (start topic key) = some s → Orderly s) ↔
      Meets step (fun s i => announced s i = true) steps (start topic key) := by
  rw [← always_iff_reached]
  exact always_iff_meets Ordered Orderly ordered_orderly
    (fun i s t h ho hp hs => ordered_step i s t h ho hp hs)
    (fun i s t h _ hs hP => orderly_announced i s t h hs hP)
    steps _ (ordered_init topic key) (meets_of_forall steps _ ho)

/-- The relation goes down with the first transaction, whose row send fails;
the second transaction uses it. -/
def abortedRelation : List Step :=
  [⟨.begin, {}⟩, ⟨.xlogData relationData, {}⟩, ⟨.xlogData (insertData 1), { send := false }⟩,
    ⟨.commit 1 1, {}⟩] ++ insertTx 2 {}

theorem aborted_relation_is_missing :
    (∀ i ∈ abortedRelation, Calm i.outcomes) ∧
      ∃ s, run step abortedRelation (start "cdc" "k") = some s ∧ ¬ RelationsFirst (committedTxs s) := by
  refine ⟨by simp [abortedRelation, insertTx, Calm],
    (run step abortedRelation (start "cdc" "k")).get (by decide), (Option.some_get _).symm,
    fun h => ?_⟩
  have hmissing := h [] _ [] (List.eq_cons_of_length_one (by decide))
  exact absurd hmissing (by decide)

def announcedRelation : List Step :=
  [⟨.begin, {}⟩, ⟨.xlogData relationData, {}⟩, ⟨.xlogData (insertData 1), {}⟩,
    ⟨.commit 1 1, {}⟩] ++ insertTx 2 {}

theorem announced_relation_is_first :
    (∀ i ∈ announcedRelation, Calm i.outcomes) ∧
      ∀ pre post s, announcedRelation = pre ++ post →
        run step pre (start "cdc" "k") = some s → Orderly s := by
  have hcalm : ∀ i ∈ announcedRelation, Calm i.outcomes := by
    simp [announcedRelation, insertTx, Calm]
  exact ⟨hcalm, (schema_first_iff_announced "cdc" "k" _ hcalm).mpr (by decide)⟩

end CDC.SchemaFirst
