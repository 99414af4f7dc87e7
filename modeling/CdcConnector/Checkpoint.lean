import Mathlib.Data.List.Flatten
import CdcConnector.KafkaLoop

/-!
# The checkpoint and lost row changes

A row change is lost when its send fails or is skipped. The reader goes on
with the next source transaction, whose commit moves the checkpoint past the
lost change. The checkpoint covers everything up to it exactly as long as no
commit succeeds after a loss.
-/

set_option autoImplicit false

namespace CDC.Checkpoint
open CDC.Fallible CDC.Event CDC.Decoder CDC.RelationDecoder CDC.RowDecoder CDC.ProducerModel
open CDC.TransactionLog CDC.PartialRun CDC.WalReader CDC.SourceStream CDC.KafkaLoop

def pendingRows (s : KafkaReader) : List Row := rowsOf ((pendingTx s).getD [])

def pendingLsns (s : KafkaReader) : List UInt64 := lsnsOf ((pendingTx s).getD [])

def receivedRows (t : Source) : List Row :=
  t.complete.flatMap SourceTx.rows ++ rows (t.current.getD [])

/-- The stream holds whole source transactions, one after the other, whose
commit LSNs grow and whose row messages decode. -/
def wellBracketed (t : Source) (i : Step) : Bool :=
  match action t.relationMap i.event with
  | .change result => t.current.isSome && result.isOk
  | .begin => t.current.isNone
  | .commit lsn endLsn =>
    t.current.isSome && t.complete.all (fun x => decide (x.lsn < lsn) && decide (x.endLsn < endLsn))
  | _ => true

/-- Every row change of every source transaction at or before the checkpoint
is in the committed log, as often and in the order it was received. The
checkpoint is the last LSN committed to the LSN topic, or the last LSN given
to `update_applied_lsn`. -/
def Covered (s : KafkaReader) (t : Source) : Prop :=
  (∀ last, (committedLsns s).getLast? = some last →
    ((t.complete.filter (fun x => x.endLsn ≤ last)).flatMap SourceTx.rows).Sublist
      (committedRows s)) ∧
  (∀ last, s.applied.getLast? = some last →
    ((t.complete.filter (fun x => x.lsn ≤ last)).flatMap SourceTx.rows).Sublist
      (committedRows s))

/-- The row change of this step does not reach the open Kafka transaction:
the reader skips it, no Kafka transaction is open, or the send fails. -/
def losesRow (s : KafkaReader) (i : Step) : Bool :=
  match action s.relationMap i.event with
  | .change _ => !(s.currentlyInTransaction && (pendingTx s).isSome && i.outcomes.send)
  | _ => false

def commits (s : KafkaReader) (i : Step) : Bool :=
  match i.event with
  | .commit _ _ => s.currentlyInTransaction && (pendingTx s).isSome && i.outcomes.sendLsn &&
      i.outcomes.commitTransaction
  | _ => false

abbrev Watch := Source × Bool

def watch (s : KafkaReader) (w : Watch) (i : Step) : Watch :=
  (w.1.observe i, w.2 || losesRow s i)

/-- No commit goes through once a row change was lost. -/
def HoldsBack (p : KafkaReader × Watch) (i : Step) : Prop :=
  p.2.2 = true → commits p.1 i = false

instance (p : KafkaReader × Watch) (i : Step) : Decidable (HoldsBack p i) :=
  inferInstanceAs (Decidable (_ → _))

structure Tracked (s : KafkaReader) (t : Source) (lost : Bool) : Prop where
  sync : s.relationMap = t.relationMap
  done : ∃ done rest, t.complete = done ++ rest ∧
    committedRows s = done.flatMap SourceTx.rows ∧
    (∀ l ∈ committedLsns s, ∃ x ∈ done, x.endLsn = l) ∧ ∀ l ∈ s.applied, ∃ x ∈ done, x.lsn = l
  growing : t.complete.Pairwise (fun x y => x.lsn < y.lsn ∧ x.endLsn < y.endLsn)
  inside : s.currentlyInTransaction = true → t.current.isSome = true
  kept : lost = false → (t.current.isSome = true → s.currentlyInTransaction = true) ∧
    committedRows s ++ pendingRows s = receivedRows t ∧
    ∀ l ∈ pendingLsns s, ∃ x ∈ t.complete, x.endLsn = l
  missing : lost = true → (committedRows s ++ pendingRows s).length < (receivedRows t).length

theorem tracked_init (topic key : String) : Tracked (start topic key) Source.init false where
  sync := rfl
  done := ⟨[], [], rfl, rfl, fun _ h => (by cases h), fun _ h => by cases h⟩
  growing := List.Pairwise.nil
  inside h := nomatch h
  kept _ := ⟨fun h => (by cases h), rfl, fun _ h => by cases h⟩
  missing h := nomatch h

section Views
variable (map : RelationMap) (flag : Bool) (k : KafkaTopics) (buf : List Record)
  (pending : Option (List Record)) (c : List (List Record)) (ap : List UInt64)

@[simp] theorem committedRows_state :
    committedRows (state map flag k pending c ap) = rowsOf c.flatten := rfl

@[simp] theorem committedLsns_state :
    committedLsns (state map flag k pending c ap) = lsnsOf c.flatten := rfl

@[simp] theorem pendingRows_none : pendingRows (state map flag k none c ap) = [] := rfl

@[simp] theorem pendingRows_some : pendingRows (state map flag k (some buf) c ap) = rowsOf buf := rfl

@[simp] theorem pendingLsns_none : pendingLsns (state map flag k none c ap) = [] := rfl

@[simp] theorem pendingLsns_some : pendingLsns (state map flag k (some buf) c ap) = lsnsOf buf := rfl

end Views

theorem filter_done (key : SourceTx → UInt64) (done rest : List SourceTx) (d : SourceTx)
    (hd : d ∈ done) (hgrow : (done ++ rest).Pairwise (fun x y => key x < key y)) :
    (done ++ rest).filter (fun x => key x ≤ key d) = done.filter (fun x => key x ≤ key d) := by
  have hnone : rest.filter (fun x => key x ≤ key d) = [] := by
    rw [List.filter_eq_nil_iff]
    intro x hx hle
    have hlt := (List.pairwise_append.mp hgrow).2.2 d hd x hx
    simp only [decide_eq_true_eq, UInt64.le_iff_toNat_le] at hle
    rw [UInt64.lt_iff_toNat_lt] at hlt
    omega
  rw [List.filter_append, hnone, List.append_nil]

theorem tracked_covered (s : KafkaReader) (t : Source) (lost : Bool) (h : Tracked s t lost) :
    Covered s t := by
  obtain ⟨done, rest, hcomplete, hrows, hlsns, happlied⟩ := h.done
  have hgrow := h.growing
  rw [hcomplete] at hgrow
  constructor
  · intro last hlast
    obtain ⟨d, hd, rfl⟩ := hlsns last (List.mem_of_getLast? hlast)
    rw [hcomplete, filter_done SourceTx.endLsn done rest d hd (hgrow.imp And.right), hrows]
    exact List.Sublist.flatMap List.filter_sublist _
  · intro last hlast
    obtain ⟨d, hd, rfl⟩ := happlied last (List.mem_of_getLast? hlast)
    rw [hcomplete, filter_done SourceTx.lsn done rest d hd (hgrow.imp And.left), hrows]
    exact List.Sublist.flatMap List.filter_sublist _

theorem tracked_frame (s s' : KafkaReader) (t t' : Source) (lost : Bool) (h : Tracked s t lost)
    (hsync : s'.relationMap = t'.relationMap) (hcom : committedTxs s' = committedTxs s)
    (hap : s'.applied = s.applied) (hrows : pendingRows s' = pendingRows s)
    (hlsns : pendingLsns s' = pendingLsns s)
    (hflag : s'.currentlyInTransaction = s.currentlyInTransaction)
    (hcur : t'.current = t.current) (hcomplete : t'.complete = t.complete) :
    Tracked s' t' lost := by
  obtain ⟨_, hdone, hgrow, hin, hkept, hmiss⟩ := h
  have hc : committedRows s' = committedRows s := by simp only [committedRows, hcom]
  have hl : committedLsns s' = committedLsns s := by simp only [committedLsns, hcom]
  have hr : receivedRows t' = receivedRows t := by simp only [receivedRows, hcur, hcomplete]
  exact ⟨hsync, by rwa [hcomplete, hc, hl, hap], by rwa [hcomplete], by rwa [hflag, hcur],
    by rwa [hflag, hcur, hc, hrows, hr, hlsns, hcomplete], by rwa [hc, hrows, hr]⟩

theorem relation_tracked (o : Outcomes) (rd : RelationData) (s : KafkaReader) (t : Source)
    (lost : Bool) (h : Tracked s t lost) :
    Tracked (onRelationMessage o rd s) (t.observeAction o (.relation rd)) lost := by
  obtain ⟨map, flag, ⟨k, ⟨pending, c⟩⟩, ap⟩ := s
  have hsync := h.sync
  refine tracked_frame _ _ t _ lost h ?_ ?_ ?_ ?_ ?_ ?_ rfl rfl
  · cases pending <;> simp [Source.observeAction, ← hsync]
  all_goals cases pending <;> cases hsend : o.sendRelation <;> simp [hsend]

theorem receivedRows_change (o : Outcomes) (r : ChangeEvent × RelationData) (t : Source)
    (hcur : t.current.isSome = true) :
    receivedRows (t.observeAction o (.change (.ok r))) = receivedRows t ++ [(r.2.inner, r.1)] := by
  obtain ⟨tmap, current, complete⟩ := t
  obtain ⟨cs, rfl⟩ := Option.isSome_iff_exists.mp hcur
  simp [receivedRows, Source.observeAction]

theorem lost_tracked (o : Outcomes) (r : ChangeEvent × RelationData) (s s' : KafkaReader)
    (t : Source) (lost : Bool) (h : Tracked s t lost) (hcur : t.current.isSome = true)
    (hmap : s'.relationMap = s.relationMap) (hcom : committedTxs s' = committedTxs s)
    (hap : s'.applied = s.applied) (hflag : s'.currentlyInTransaction = false)
    (hrows : (pendingRows s').length ≤ (pendingRows s).length) :
    Tracked s' (t.observeAction o (.change (.ok r))) true := by
  have hc : committedRows s' = committedRows s := by simp only [committedRows, hcom]
  have hl : committedLsns s' = committedLsns s := by simp only [committedLsns, hcom]
  have hsum : (committedRows s ++ pendingRows s).length ≤ (receivedRows t).length := by
    cases lost with
    | false => exact le_of_eq (congrArg List.length (h.kept rfl).2.1)
    | true => exact le_of_lt (h.missing rfl)
  refine ⟨hmap.trans h.sync, by rw [hc, hl, hap]; exact h.done, h.growing,
    fun hf => absurd hf (by simp [hflag]), fun hf => (by cases hf), fun _ => ?_⟩
  rw [receivedRows_change o r t hcur, hc]
  simp only [List.length_append, List.length_singleton] at hsum ⊢
  omega

theorem sent_tracked (o : Outcomes) (r : ChangeEvent × RelationData) (map : RelationMap)
    (k : KafkaTopics) (buf : List Record) (c : List (List Record)) (ap : List UInt64) (t : Source)
    (lost : Bool) (h : Tracked (state map true k (some buf) c ap) t lost)
    (hcur : t.current.isSome = true) :
    Tracked (state map true k (some (buf ++ [k.eventRecord r.2.inner r.1])) c ap)
      (t.observeAction o (.change (.ok r))) lost := by
  have hreceived := receivedRows_change o r t hcur
  refine ⟨h.sync, h.done, h.growing, fun _ => ?_, fun hf => ?_, fun hf => ?_⟩
  · simpa [Source.observeAction] using hcur
  · obtain ⟨_, hrows, hlsns⟩ := h.kept hf
    rw [hreceived]
    refine ⟨fun _ => rfl, ?_, ?_⟩
    · rw [← hrows]
      simp
    · simpa [Source.observeAction] using hlsns
  · have hmiss := h.missing hf
    rw [hreceived]
    simp only [committedRows_state, pendingRows_some, rowsOf_append, rowsOf_event, rowsOf_nil,
      List.length_append, List.length_singleton] at hmiss ⊢
    omega

theorem change_tracked (o : Outcomes) (event : ChangeEvent) (rd : RelationData)
    (s s' : KafkaReader) (t : Source) (lost : Bool) (h : Tracked s t lost)
    (hcur : t.current.isSome = true) (hs : onChange o (.ok (event, rd)) s = some s') :
    Tracked s' (t.observeAction o (.change (.ok (event, rd))))
      (lost || !(s.currentlyInTransaction && (pendingTx s).isSome && o.send)) := by
  obtain ⟨map, flag, ⟨k, ⟨pending, c⟩⟩, ap⟩ := s
  rcases onChange_cases o _ _ s' hs with
    ⟨hflag, rfl⟩ | ⟨_, ⟨e, he⟩, _⟩ | ⟨hflag, ev, rd', heq, rfl⟩
  · cases hflag
    have hlost : lost = true := by
      by_contra hf
      exact absurd ((h.kept (Bool.eq_false_of_not_eq_true hf)).1 hcur) (by simp)
    rw [hlost, Bool.true_or]
    exact lost_tracked o (event, rd) _ _ t lost h hcur rfl rfl rfl rfl (le_refl _)
  · cases he
  · cases hflag
    cases heq
    by_cases hreach : pending.isSome = true ∧ o.send = true
    · obtain ⟨buf, rfl⟩ := Option.isSome_iff_exists.mp hreach.1
      rw [send_open, if_pos hreach.2, pendingTx_state, hreach.2, Option.isSome_some,
        Bool.and_self, Bool.and_self, Bool.not_true, Bool.or_false]
      exact sent_tracked o (event, rd) map k buf c ap t lost h hcur
    · have hlost : (lost || !(true && pending.isSome && o.send)) = true := by
        cases hp : pending.isSome <;> cases hsend : o.send <;> simp_all
      rw [pendingTx_state, hlost]
      cases pending with
      | none =>
        rw [send_closed]
        exact lost_tracked o (event, rd) _ _ t lost h hcur rfl rfl rfl rfl (le_refl _)
      | some buf =>
        rw [send_open, if_neg (fun hsend => hreach ⟨rfl, hsend⟩)]
        refine lost_tracked o (event, rd) _ _ t lost h hcur rfl rfl rfl rfl ?_
        cases o.abortTransaction <;> simp

theorem begin_tracked (o : Outcomes) (s : KafkaReader) (t : Source) (lost : Bool)
    (h : Tracked s t lost) (hcur : t.current = none) :
    Tracked (onBegin o s) (t.observeAction o .begin) lost := by
  obtain ⟨map, flag, ⟨k, ⟨pending, c⟩⟩, ap⟩ := s
  obtain ⟨tmap, current, complete⟩ := t
  dsimp only at hcur
  subst hcur
  obtain ⟨hsync, hdone, hgrow, hin, hkept, hmiss⟩ := h
  have hflag : flag = false := by
    cases flag with
    | false => rfl
    | true => exact absurd (hin rfl) (by simp)
  subst hflag
  have hopen : ∃ pending', onBegin o (state map false k pending c ap) =
      state map true k pending' c ap ∧
      pendingRows (state map true k pending' c ap) = pendingRows (state map false k pending c ap) ∧
      pendingLsns (state map true k pending' c ap) = pendingLsns (state map false k pending c ap) := by
    cases pending with
    | some buf => exact ⟨some buf, begin_unnoticed _ _ _ _ _ _, rfl, rfl⟩
    | none =>
      refine ⟨_, begin_closed _ _ _ _ _ _, ?_⟩
      cases o.beginTransaction <;> exact ⟨rfl, rfl⟩
  obtain ⟨pending', heq, hrows, hlsns⟩ := hopen
  rw [heq]
  refine ⟨hsync, hdone, hgrow, fun _ => rfl, fun hf => ⟨fun _ => rfl, ?_, ?_⟩, fun hf => ?_⟩
  · rw [hrows]
    simpa [receivedRows, Source.observeAction] using (hkept hf).2.1
  · rw [hlsns]
    exact (hkept hf).2.2
  · rw [hrows]
    simpa [receivedRows, Source.observeAction] using hmiss hf

theorem receivedRows_commit (map : RelationMap) (cs : List Change) (complete : List SourceTx)
    (lsn endLsn : UInt64) :
    receivedRows ⟨map, none, complete ++ [⟨cs, lsn, endLsn⟩]⟩ =
      receivedRows ⟨map, some cs, complete⟩ := by
  simp [receivedRows, SourceTx.rows]

theorem growing_append (complete : List SourceTx) (x : SourceTx)
    (hgrow : complete.Pairwise (fun x y => x.lsn < y.lsn ∧ x.endLsn < y.endLsn))
    (hafter : ∀ y ∈ complete, y.lsn < x.lsn ∧ y.endLsn < x.endLsn) :
    (complete ++ [x]).Pairwise (fun x y => x.lsn < y.lsn ∧ x.endLsn < y.endLsn) := by
  rw [List.pairwise_append]
  refine ⟨hgrow, List.pairwise_singleton _ _, fun y hy z hz => ?_⟩
  rw [List.mem_singleton.mp hz]
  exact hafter y hy

theorem commit_held (lsn endLsn : UInt64) (s : KafkaReader) (lost : Bool)
    (cs : List Change) (tmap : RelationMap) (complete : List SourceTx)
    (h : Tracked s ⟨tmap, some cs, complete⟩ lost)
    (hafter : ∀ y ∈ complete, y.lsn < lsn ∧ y.endLsn < endLsn)
    (s' : KafkaReader) (hmap : s'.relationMap = s.relationMap)
    (hflag : s'.currentlyInTransaction = false)
    (hcom : committedTxs s' = committedTxs s) (hap : s'.applied = s.applied)
    (hrows : pendingRows s' = pendingRows s)
    (hlsns : ∀ l ∈ pendingLsns s', l ∈ pendingLsns s ∨ l = endLsn) :
    Tracked s' ⟨tmap, none, complete ++ [⟨cs, lsn, endLsn⟩]⟩ lost := by
  obtain ⟨hsync, ⟨done, rest, hcomplete, hdone⟩, hgrow, hin, hkept, hmiss⟩ := h
  have hc : committedRows s' = committedRows s := by simp only [committedRows, hcom]
  have hl : committedLsns s' = committedLsns s := by simp only [committedLsns, hcom]
  refine ⟨hmap.trans hsync, ?_, growing_append _ _ hgrow hafter, ?_, ?_, ?_⟩
  · refine ⟨done, rest ++ [⟨cs, lsn, endLsn⟩], ?_, by rwa [hc, hl, hap]⟩
    dsimp only at hcomplete ⊢
    rw [hcomplete, List.append_assoc]
  · intro hf
    rw [hflag] at hf
    cases hf
  · intro hf
    obtain ⟨_, heq, hpend⟩ := hkept hf
    refine ⟨fun hcur => (by cases hcur), ?_, fun l hl => ?_⟩
    · rw [hc, hrows, receivedRows_commit, heq]
    · rcases hlsns l hl with hold | rfl
      · obtain ⟨x, hx, rfl⟩ := hpend l hold
        exact ⟨x, List.mem_append_left _ hx, rfl⟩
      · exact ⟨⟨cs, lsn, l⟩, by simp, rfl⟩
  · intro hf
    rw [hc, hrows, receivedRows_commit]
    exact hmiss hf

theorem commit_through (lsn endLsn : UInt64) (map : RelationMap) (k : KafkaTopics)
    (buf : List Record) (c : List (List Record)) (ap : List UInt64)
    (cs : List Change) (tmap : RelationMap) (complete : List SourceTx)
    (h : Tracked (state map true k (some buf) c ap) ⟨tmap, some cs, complete⟩ false)
    (hafter : ∀ y ∈ complete, y.lsn < lsn ∧ y.endLsn < endLsn) :
    Tracked (state map false k none (c ++ [buf ++ [k.lsnRecord endLsn]]) (ap ++ [lsn]))
      ⟨tmap, none, complete ++ [⟨cs, lsn, endLsn⟩]⟩ false := by
  obtain ⟨hsync, ⟨done, rest, hcomplete, _, hlsns, happlied⟩, hgrow, hin, hkept, _⟩ := h
  obtain ⟨_, heq, hpend⟩ := hkept rfl
  dsimp only at hcomplete
  have hmem : ∀ x ∈ complete, x ∈ complete ++ [(⟨cs, lsn, endLsn⟩ : SourceTx)] :=
    fun x hx => List.mem_append_left _ hx
  have hdone : ∀ x ∈ done, x ∈ complete ++ [(⟨cs, lsn, endLsn⟩ : SourceTx)] :=
    fun x hx => hmem x (hcomplete ▸ List.mem_append_left _ hx)
  have hall : committedRows
      (state map false k none (c ++ [buf ++ [k.lsnRecord endLsn]]) (ap ++ [lsn])) =
      receivedRows ⟨tmap, none, complete ++ [⟨cs, lsn, endLsn⟩]⟩ := by
    rw [receivedRows_commit, ← heq]
    simp
  refine ⟨hsync, ⟨complete ++ [⟨cs, lsn, endLsn⟩], [], (List.append_nil _).symm, ?_, ?_, ?_⟩,
    growing_append _ _ hgrow hafter, fun hf => (by cases hf), fun _ => ?_, fun hf => by cases hf⟩
  · rw [hall]
    simp [receivedRows]
  · intro l hl
    simp only [committedLsns_state, List.flatten_append, List.flatten_singleton,
      lsnsOf_append, lsnsOf_lsn, lsnsOf_nil, List.mem_append, List.mem_singleton] at hl
    rcases hl with hl | hl | rfl
    · obtain ⟨x, hx, rfl⟩ := hlsns l hl
      exact ⟨x, hdone x hx, rfl⟩
    · obtain ⟨x, hx, rfl⟩ := hpend l hl
      exact ⟨x, hmem x hx, rfl⟩
    · exact ⟨⟨cs, lsn, l⟩, by simp, rfl⟩
  · intro l hl
    rcases List.mem_append.mp hl with hl | hl
    · obtain ⟨x, hx, rfl⟩ := happlied l hl
      exact ⟨x, hdone x hx, rfl⟩
    · rw [List.mem_singleton.mp hl]
      exact ⟨⟨cs, lsn, endLsn⟩, by simp, rfl⟩
  · refine ⟨fun hf => (by cases hf), ?_, fun l hl => by cases hl⟩
    rw [hall, pendingRows_none, List.append_nil]

theorem commit_tracked (o : Outcomes) (lsn endLsn : UInt64) (s : KafkaReader) (t : Source)
    (lost : Bool) (h : Tracked s t lost) (hcur : t.current.isSome = true)
    (hafter : ∀ y ∈ t.complete, y.lsn < lsn ∧ y.endLsn < endLsn)
    (hholds : lost = true → commits s ⟨.commit lsn endLsn, o⟩ = false) :
    Tracked (onCommit o lsn endLsn s) (t.observeAction o (.commit lsn endLsn)) lost := by
  obtain ⟨map, flag, ⟨k, ⟨pending, c⟩⟩, ap⟩ := s
  obtain ⟨tmap, current, complete⟩ := t
  obtain ⟨cs, rfl⟩ := Option.isSome_iff_exists.mp hcur
  have hheld := commit_held lsn endLsn _ lost cs tmap complete h hafter
  cases flag with
  | false => exact hheld _ rfl rfl rfl rfl rfl (fun l hl => Or.inl hl)
  | true =>
    cases pending with
    | none =>
      rw [commit_closed]
      exact hheld _ rfl rfl rfl rfl rfl (fun l hl => Or.inl hl)
    | some buf =>
      rw [commit_open]
      by_cases hl : o.sendLsn = true
      · by_cases hc : o.commitTransaction = true
        · rw [if_pos hl, if_pos hc]
          have hlost : lost = false := by
            cases lost with
            | false => rfl
            | true => simpa [commits, hl, hc] using hholds rfl
          subst hlost
          exact commit_through lsn endLsn map k buf c ap cs tmap complete h hafter
        · rw [if_pos hl, if_neg hc]
          refine hheld _ rfl rfl rfl rfl (by simp) (fun l hl => ?_)
          simpa using hl
      · rw [if_neg hl]
        exact hheld _ rfl rfl rfl rfl rfl (fun l hl => Or.inl hl)

theorem tracked_step (i : Step) (s s' : KafkaReader) (w : Watch) (h : Tracked s w.1 w.2)
    (hwell : wellBracketed w.1 i = true) (hholds : HoldsBack (s, w) i) (hs : step i s = some s') :
    Tracked s' (watch s w i).1 (watch s w i).2 := by
  obtain ⟨t, lost⟩ := w
  obtain ⟨event, o⟩ := i
  have hsync := h.sync
  unfold wellBracketed at hwell
  unfold watch losesRow Source.observe
  dsimp only at hwell hsync ⊢
  rw [← hsync] at hwell ⊢
  rcases step_cases ⟨event, o⟩ s s' hs with
    ⟨ha, rfl⟩ | ⟨rd, ha, rfl⟩ | ⟨result, ha, hs⟩ | ⟨ha, rfl⟩ | ⟨lsn, endLsn, ha, rfl⟩ <;>
    simp only [ha, Bool.or_false] at hwell ⊢
  · exact h
  · exact relation_tracked o rd s t lost h
  · obtain ⟨hcur, hok⟩ := Bool.and_eq_true_iff.mp hwell
    obtain ⟨⟨change, rd⟩, rfl⟩ := (isOk_iff result).mp hok
    exact change_tracked o change rd s s' t lost h hcur hs
  · exact begin_tracked o s t lost h (Option.isNone_iff_eq_none.mp hwell)
  · have hevent : event = .commit lsn endLsn := action_commit ha
    subst hevent
    simp only [Bool.and_eq_true, List.all_eq_true, decide_eq_true_eq] at hwell
    exact commit_tracked o lsn endLsn s t lost h hwell.1 hwell.2 hholds

theorem filter_last (complete : List SourceTx) (x : SourceTx)
    (hafter : ∀ y ∈ complete, y.endLsn < x.endLsn) :
    (complete ++ [x]).filter (fun y => y.endLsn ≤ x.endLsn) = complete ++ [x] := by
  rw [List.filter_eq_self]
  intro y hy
  simp only [decide_eq_true_eq]
  rcases List.mem_append.mp hy with hy | hy
  · exact UInt64.le_of_lt (hafter y hy)
  · rw [List.mem_singleton.mp hy]
    exact UInt64.le_refl _

/-- A commit after a loss moves both checkpoints past the lost row. -/
theorem commit_uncovers (i : Step) (s s' : KafkaReader) (w : Watch) (h : Tracked s w.1 w.2)
    (hwell : wellBracketed w.1 i = true) (hs : step i s = some s')
    (hcov : Covered s' (watch s w i).1) : HoldsBack (s, w) i := by
  obtain ⟨t, lost⟩ := w
  obtain ⟨event, o⟩ := i
  rintro hlost
  dsimp only at hlost h
  subst hlost
  cases event with
  | commit lsn endLsn =>
    by_contra hcommits
    obtain ⟨map, flag, ⟨k, ⟨pending, c⟩⟩, ap⟩ := s
    obtain ⟨tmap, current, complete⟩ := t
    simp only [commits, pendingTx_state, Bool.not_eq_false, Bool.and_eq_true] at hcommits
    obtain ⟨⟨⟨rfl, hp⟩, hl⟩, hc⟩ := hcommits
    obtain ⟨buf, rfl⟩ := Option.isSome_iff_exists.mp hp
    simp only [wellBracketed, action, Bool.and_eq_true, List.all_eq_true,
      decide_eq_true_eq] at hwell
    obtain ⟨cs, rfl⟩ := Option.isSome_iff_exists.mp hwell.1
    simp only [step, commit_open, if_pos hl, if_pos hc, Option.some.injEq] at hs
    subst hs
    have hmiss := h.missing rfl
    have hlast : (committedLsns (state map false k none (c ++ [buf ++ [k.lsnRecord endLsn]])
        (ap ++ [lsn]))).getLast? = some endLsn := by simp
    have hsub := (hcov.1 endLsn hlast).length_le
    have hfilter := filter_last complete ⟨cs, lsn, endLsn⟩ (fun y hy => (hwell.2 y hy).2)
    dsimp only at hfilter
    simp only [watch, Source.observe, action, Source.observeAction, hfilter] at hsub
    rw [← receivedRows_commit tmap cs complete lsn endLsn] at hmiss
    simp [receivedRows] at hmiss hsub
    omega
  | xlogData data => rfl
  | begin => rfl
  | keepAlive => rfl
  | message => rfl
  | other => rfl

/-- Over every run, the checkpoint covers every source transaction at or
before it in every state, exactly when no commit goes through after a row
change was lost. -/
theorem covered_iff_holds_back (topic key : String) (steps : List Step)
    (hwell : Throughout wellBracketed steps) :
    (∀ pre post s, steps = pre ++ post → run step pre (start topic key) = some s →
        Covered s (sourceOf pre)) ↔
      Meets (pair step watch) HoldsBack steps (start topic key, (Source.init, false)) :=
  prefixes_iff_meets Prod.fst Source.observe (fun _ _ _ => rfl)
    (fun s w => Tracked s w.1 w.2) Covered (fun t i => wellBracketed t i = true)
    (fun s w h => tracked_covered s w.1 w.2 h)
    (fun i s s' w h hw hh hs => tracked_step i s s' w h hw hh hs)
    (fun i s s' w h hw hs hcov => commit_uncovers i s s' w h hw hs hcov)
    steps _ (Source.init, false) (tracked_init topic key) hwell

def overtaking : List Step :=
  ⟨.xlogData relationData, {}⟩ :: insertTx 1 { send := false } ++ insertTx 2 {}

def heldBack : List Step :=
  ⟨.xlogData relationData, {}⟩ :: insertTx 1 {} ++ insertTx 2 { send := false }

theorem checkpoint_overtakes :
    Throughout wellBracketed overtaking ∧
      ∃ s, run step overtaking (start "cdc" "k") = some s ∧ ¬ Covered s (sourceOf overtaking) := by
  refine ⟨by decide, (run step overtaking (start "cdc" "k")).get (by decide),
    (Option.some_get _).symm, fun h => ?_⟩
  exact absurd (h.1 2 (by decide)) (by decide)

theorem held_back_is_covered :
    Throughout wellBracketed heldBack ∧
      ∀ pre post s, heldBack = pre ++ post → run step pre (start "cdc" "k") = some s →
        Covered s (sourceOf pre) :=
  ⟨by decide, (covered_iff_holds_back "cdc" "k" heldBack (by decide)).mpr (by decide)⟩

end CDC.Checkpoint
