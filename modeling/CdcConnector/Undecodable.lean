import CdcConnector.Atomicity

/-!
# Row messages that do not decode

With a producer that never fails the reader commits every complete source
transaction. A row message its decoder rejects is dropped from the
transaction, which is committed all the same.
-/

set_option autoImplicit false

namespace CDC.Undecodable
open CDC.Fallible CDC.Event CDC.Decoder CDC.RelationDecoder CDC.RowDecoder CDC.ProducerModel
open CDC.TransactionLog CDC.PartialRun CDC.WalReader CDC.SourceStream CDC.KafkaLoop CDC.Atomicity

def rejected (c : Change) : Bool :=
  match c.result with
  | .error (.error _) => true
  | _ => false

def hasRejected (x : SourceTx) : Bool := x.changes.any rejected

/-- Neither the events nor the LSNs of the source transaction are out. -/
structure Withheld (s : KafkaReader) (x : SourceTx) : Prop where
  events : sourceContents x ∉ (committedTxs s).map contents
  lsn : x.endLsn ∉ committedLsns s
  applied : x.lsn ∉ s.applied

theorem all_sent (steps : List Step) (hok : ∀ i ∈ steps, i.outcomes = {}) :
    (sourceOf steps).complete.filter SourceTx.sent = (sourceOf steps).complete := by
  rw [List.filter_eq_self]
  exact sent_throughout steps (fun i hi => by rw [hok i hi])

theorem lsnsOf_flatten (txs : List (List Record)) :
    lsnsOf txs.flatten = txs.flatMap (fun tx => (contents tx).2) := by
  induction txs with
  | nil => rfl
  | cons tx txs ih =>
    rw [List.flatten_cons, lsnsOf_append, ih, List.flatMap_cons]
    rfl

/-- With no failing call, every complete source transaction is committed with
its end LSN and its LSN applied, whether its rows decode or not. -/
theorem everything_commits (topic key : String) (steps : List Step)
    (hok : ∀ i ∈ steps, i.outcomes = {}) (s : KafkaReader)
    (hrun : run step steps (start topic key) = some s) :
    (committedTxs s).map contents = (sourceOf steps).complete.map sourceContents ∧
      committedLsns s = (sourceOf steps).complete.map SourceTx.endLsn ∧
      s.applied = (sourceOf steps).complete.map SourceTx.lsn := by
  have hcalm : ∀ i ∈ steps, Calm i.outcomes := fun i hi => by
    rw [hok i hi]
    exact ⟨rfl, rfl, rfl, rfl⟩
  obtain ⟨_, hlog, happlied, _⟩ := atomic_run topic key steps hcalm s hrun
  rw [all_sent steps hok] at hlog happlied
  refine ⟨hlog, ?_, happlied⟩
  rw [committedLsns, lsnsOf_flatten, ← List.flatMap_map contents Prod.snd, hlog,
    List.flatMap_map]
  exact List.map_eq_flatMap.symm

/-- A source transaction with a rejected row message is never withheld. -/
theorem withheld_iff_none_rejected (topic key : String) (steps : List Step)
    (hok : ∀ i ∈ steps, i.outcomes = {}) (s : KafkaReader)
    (hrun : run step steps (start topic key) = some s) :
    ∀ x ∈ (sourceOf steps).complete,
      (hasRejected x = true → Withheld s x) ↔ hasRejected x = false := by
  obtain ⟨_, _, happlied⟩ := everything_commits topic key steps hok s hrun
  intro x hx
  constructor
  · intro h
    by_contra hrej
    refine (h (Bool.eq_true_of_not_eq_false hrej)).applied ?_
    rw [happlied]
    exact List.mem_map_of_mem hx
  · intro hnone hrej
    rw [hnone] at hrej
    cases hrej

def varcharRelation : Bytes :=
  [0x52, 0,0,0,2, 0x70,0, 0x76,0, 0x64, 0,1, 1, 0x69,0x64,0, 0,0,4,19, 0,0,0,0]

def varcharInsert : Bytes := [0x49, 0,0,0,2, 0x4E, 0,1, 0x74, 0,0,0,1, 0x61]

def unsupported : List Step :=
  [⟨.xlogData relationData, {}⟩, ⟨.xlogData varcharRelation, {}⟩, ⟨.begin, {}⟩,
    ⟨.xlogData varcharInsert, {}⟩, ⟨.xlogData (insertData 1), {}⟩, ⟨.commit 9 9, {}⟩]

theorem rejected_is_committed :
    ∃ s x, run step unsupported (start "cdc" "k") = some s ∧
      (∀ i ∈ unsupported, i.outcomes = {}) ∧ x ∈ (sourceOf unsupported).complete ∧
      hasRejected x = true ∧ ¬ Withheld s x := by
  refine ⟨(run step unsupported (start "cdc" "k")).get (by decide),
    (sourceOf unsupported).complete.head (by decide), (Option.some_get _).symm, by decide,
    List.head_mem _, by decide, fun h => ?_⟩
  exact absurd h.applied (by decide)

theorem withheld_when_all_decode :
    ∃ s, run step (⟨.xlogData relationData, {}⟩ :: insertTx 1 {}) (start "cdc" "k") = some s ∧
      ∀ x ∈ (sourceOf (⟨.xlogData relationData, {}⟩ :: insertTx 1 {})).complete,
        hasRejected x = true → Withheld s x := by
  let s := (run step (⟨.xlogData relationData, {}⟩ :: insertTx 1 {}) (start "cdc" "k")).get
    (by decide)
  have hrun : run step (⟨.xlogData relationData, {}⟩ :: insertTx 1 {}) (start "cdc" "k") = some s :=
    (Option.some_get _).symm
  have hnone : ∀ x ∈ (sourceOf (⟨.xlogData relationData, {}⟩ :: insertTx 1 {})).complete,
      hasRejected x = false := by decide
  exact ⟨s, hrun, fun x hx =>
    (withheld_iff_none_rejected "cdc" "k" _ (by decide) s hrun x hx).mpr (hnone x hx)⟩

end CDC.Undecodable
