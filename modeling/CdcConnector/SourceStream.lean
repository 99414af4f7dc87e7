import CdcConnector.WalReader

/-!
# The source transactions of a stream

An observer reads the replication events and cuts them into source
transactions, without a producer. A `Begin` discards the transaction that is
open; row messages outside a transaction belong to none. Each row message is
kept with the result of its decoder under the relations received so far, and
with whether the environment lets its send through; a message that does not
decode needs no send.
-/

set_option autoImplicit false

namespace CDC.SourceStream
open CDC.Fallible CDC.Event CDC.Decoder CDC.RelationDecoder CDC.RowDecoder CDC.ProducerModel
open CDC.PartialRun CDC.WalReader

structure Change where
  result : Decoded (ChangeEvent × RelationData)
  sendOk : Bool

def Change.row? (c : Change) : Option Row :=
  match c.result with
  | .ok (event, relation) => some (relation.inner, event)
  | .error _ => none

structure SourceTx where
  changes : List Change
  lsn : UInt64
  endLsn : UInt64

def rows (cs : List Change) : List Row := cs.filterMap Change.row?

def sent (cs : List Change) : Bool := cs.all Change.sendOk

def Decodes (cs : List Change) : Prop := ∀ c ∈ cs, ∃ r, c.result = .ok r

namespace SourceTx

def rows (t : SourceTx) : List Row := SourceStream.rows t.changes

def sent (t : SourceTx) : Bool := SourceStream.sent t.changes

def Decodes (t : SourceTx) : Prop := SourceStream.Decodes t.changes

end SourceTx

structure Source where
  relationMap : RelationMap
  current : Option (List Change)
  complete : List SourceTx

def Source.init : Source := ⟨fun _ => none, none, []⟩

def Source.observeAction (o : Outcomes) (t : Source) : Action → Source
  | .halt => t
  | .skip => t
  | .relation relation =>
    { t with relationMap := Function.update t.relationMap relation.inner.relationOid (some relation) }
  | .change result => { t with current := t.current.map (· ++ [⟨result, o.send || !result.isOk⟩]) }
  | .begin => { t with current := some [] }
  | .commit lsn endLsn =>
    match t.current with
    | some cs => { t with current := none, complete := t.complete ++ [⟨cs, lsn, endLsn⟩] }
    | none => t

def Source.observe (t : Source) (i : Step) : Source :=
  t.observeAction i.outcomes (action t.relationMap i.event)

def sourceOf (steps : List Step) : Source := steps.foldl Source.observe Source.init

def Throughout (cond : Source → Step → Bool) (steps : List Step) : Prop :=
  Meets (fun i t => some (Source.observe t i)) (fun t i => cond t i = true) steps Source.init

instance (cond : Source → Step → Bool) (steps : List Step) : Decidable (Throughout cond steps) :=
  decidableMeets _ steps Source.init

def rowDecodes (t : Source) (i : Step) : Bool :=
  match action t.relationMap i.event with
  | .change result => result.isOk
  | _ => true

@[simp] theorem rows_append (cs ds : List Change) : rows (cs ++ ds) = rows cs ++ rows ds :=
  List.filterMap_append

@[simp] theorem rows_nil : rows [] = [] := rfl

@[simp] theorem rows_ok (r : ChangeEvent × RelationData) (b : Bool) :
    rows [⟨.ok r, b⟩] = [(r.2.inner, r.1)] := rfl

@[simp] theorem rows_error (e : Fault DecoderError) (b : Bool) : rows [⟨.error e, b⟩] = [] := rfl

@[simp] theorem sent_append (cs : List Change) (c : Change) :
    sent (cs ++ [c]) = (sent cs && c.sendOk) := by
  simp [sent]

theorem throughout_preserves (Inv : Source → Prop) {cond : Source → Step → Bool}
    (hstep : ∀ t i, Inv t → cond t i = true → Inv (t.observe i)) (hinit : Inv Source.init)
    (steps : List Step) (h : Throughout cond steps) : Inv (sourceOf steps) := by
  suffices hall : ∀ t, Inv t →
      Meets (fun i t => some (Source.observe t i)) (fun t i => cond t i = true) steps t →
      Inv (steps.foldl Source.observe t) from hall _ hinit h
  clear h hinit
  induction steps with
  | nil => exact fun t ht _ => ht
  | cons i steps ih =>
    intro t ht hmeets
    obtain ⟨hi, hrest⟩ := hmeets _ rfl
    exact ih _ (hstep t i ht hi) hrest

theorem isOk_iff {α : Type} (r : Decoded α) : r.isOk = true ↔ ∃ a, r = .ok a := by
  cases r <;> simp [Except.isOk, Except.toBool]

theorem rows_of_decodes (cs : List Change) (h : Decodes cs) :
    (rows cs).map some = cs.map Change.row? := by
  induction cs with
  | nil => rfl
  | cons c cs ih =>
    obtain ⟨⟨event, rd⟩, hr⟩ := h c (by simp)
    have hc : c.row? = some (rd.inner, event) := by simp [Change.row?, hr]
    have hrows : rows (c::cs) = (rd.inner, event) :: rows cs := by simp [rows, hc]
    rw [hrows, List.map_cons, List.map_cons, hc, ih (fun d hd => h d (by simp [hd]))]

theorem changes_throughout (p : Change → Prop) {cond : Source → Step → Bool}
    (hp : ∀ t i result, cond t i = true → action t.relationMap i.event = .change result →
      p ⟨result, i.outcomes.send || !result.isOk⟩)
    (steps : List Step) (h : Throughout cond steps) :
    ∀ x ∈ (sourceOf steps).complete, ∀ c ∈ x.changes, p c := by
  refine (throughout_preserves
    (fun t => (∀ x ∈ t.complete, ∀ c ∈ x.changes, p c) ∧ ∀ cs, t.current = some cs → ∀ c ∈ cs, p c)
    ?_ ⟨by simp [Source.init], by simp [Source.init]⟩ steps h).1
  rintro ⟨map, current, complete⟩ i ⟨hdone, hcur⟩ hi
  have hp := hp ⟨map, current, complete⟩ i
  unfold Source.observe
  dsimp only at hp hdone hcur ⊢
  cases ha : action map i.event with
  | halt => exact ⟨hdone, hcur⟩
  | skip => exact ⟨hdone, hcur⟩
  | relation rd => exact ⟨hdone, hcur⟩
  | change result =>
    refine ⟨hdone, fun cs hcs => ?_⟩
    obtain ⟨ds, hds, rfl⟩ := Option.map_eq_some_iff.mp hcs
    intro c hc
    rcases List.mem_append.mp hc with hc | hc
    · exact hcur ds hds c hc
    · rw [List.mem_singleton.mp hc]
      exact hp result hi ha
  | begin =>
    refine ⟨hdone, fun cs hcs => ?_⟩
    cases hcs
    exact fun c hc => by cases hc
  | commit lsn endLsn =>
    cases current with
    | none => exact ⟨hdone, hcur⟩
    | some cs =>
      refine ⟨fun x hx => ?_, fun cs hcs => by cases hcs⟩
      rcases List.mem_append.mp hx with hx | hx
      · exact hdone x hx
      · rw [List.mem_singleton.mp hx]
        exact hcur cs rfl

theorem decodes_throughout (steps : List Step) (h : Throughout rowDecodes steps) :
    ∀ x ∈ (sourceOf steps).complete, x.Decodes := by
  refine changes_throughout (fun c => ∃ r, c.result = .ok r) (fun t i result hi ha => ?_) steps h
  unfold rowDecodes at hi
  rw [ha] at hi
  exact (isOk_iff result).mp hi

theorem sent_throughout (steps : List Step) (h : ∀ i ∈ steps, i.outcomes.send = true) :
    ∀ x ∈ (sourceOf steps).complete, x.sent = true := by
  have hthrough : Throughout (fun _ i => i.outcomes.send) steps := meets_of_forall steps _ h
  intro x hx
  refine List.all_eq_true.mpr (changes_throughout (fun c => c.sendOk = true) ?_ steps hthrough x hx)
  intro t i result hi _
  dsimp only at hi ⊢
  rw [hi, Bool.true_or]

variable {P : Type} [Producer P]

@[simp] theorem onBegin_relationMap (o : Outcomes) (s : Reader P) :
    (onBegin o s).relationMap = s.relationMap := by
  unfold onBegin
  split <;> rfl

@[simp] theorem onCommit_relationMap (o : Outcomes) (lsn endLsn : UInt64) (s : Reader P) :
    (onCommit o lsn endLsn s).relationMap = s.relationMap := by
  unfold onCommit
  split <;> rfl

@[simp] theorem sendToProducer_relationMap (o : Outcomes)
    (r : Except DecoderError (ChangeEvent × RelationData)) (s : Reader P) :
    (sendToProducer o r s).relationMap = s.relationMap := by
  cases r with
  | ok r => simp only [sendToProducer]; split <;> rfl
  | error e => rfl

theorem onChange_relationMap (o : Outcomes) (result : Decoded (ChangeEvent × RelationData))
    (s s' : Reader P) (h : onChange o result s = some s') : s'.relationMap = s.relationMap := by
  rcases onChange_cases o result s s' h with ⟨_, rfl⟩ | ⟨_, _, rfl⟩ | ⟨_, event, rd, _, rfl⟩
  · rfl
  · rfl
  · exact sendToProducer_relationMap o _ s

@[simp] theorem observe_commit_relationMap (o : Outcomes) (t : Source) (lsn endLsn : UInt64) :
    (t.observeAction o (.commit lsn endLsn)).relationMap = t.relationMap := by
  unfold Source.observeAction
  cases t.current <;> rfl

theorem sync_step (i : Step) (s s' : Reader P) (t : Source)
    (hsync : s.relationMap = t.relationMap) (h : step i s = some s') :
    s'.relationMap = (t.observe i).relationMap := by
  rw [Source.observe, ← hsync]
  rcases step_cases i s s' h with
    ⟨ha, rfl⟩ | ⟨rd, ha, rfl⟩ | ⟨result, ha, h⟩ | ⟨ha, rfl⟩ | ⟨lsn, endLsn, ha, rfl⟩ <;> rw [ha]
  · exact hsync
  · simp [onRelationMessage, Source.observeAction, hsync]
  · rw [onChange_relationMap _ _ _ _ h]
    exact hsync
  · rw [onBegin_relationMap]
    exact hsync
  · simpa using hsync

abbrev observed : Step → Reader P × Source → Option (Reader P × Source) :=
  pair step (fun _ => Source.observe)

/-- What one step preserves jointly of reader and observer holds after every
run from the start whose steps meet the condition. -/
theorem run_source {Inv : Reader P → Source → Prop} {cond : Reader P × Source → Step → Prop}
    (hstep : ∀ i s t s', Inv s t → cond (s, t) i → step i s = some s' → Inv s' (t.observe i))
    (p : P) (hinit : Inv (Reader.init p) Source.init) (steps : List Step)
    (hc : Meets observed cond steps (Reader.init p, Source.init))
    (s : Reader P) (h : run step steps (Reader.init p) = some s) : Inv s (sourceOf steps) := by
  have hfst := run_pair_fst step (fun _ => Source.observe) steps (Reader.init p, Source.init)
  obtain ⟨q, hq, rfl⟩ := Option.map_eq_some_iff.mp (hfst.symm.trans h)
  have hsnd : q.2 = sourceOf steps :=
    run_pair_snd id Source.observe (fun _ _ _ => rfl) steps _ q hq
  rw [← hsnd]
  refine run_preserves_meeting (fun q => Inv q.1 q.2) ?_ steps _ q hinit hc hq
  intro i p q hp hcond hpq
  obtain ⟨hs, ht⟩ := pair_some hpq
  rw [ht]
  exact hstep i p.1 p.2 q.1 hp hcond hs

def relationData : Bytes :=
  [0x52, 0,0,0,1, 0x70,0, 0x75,0, 0x64, 0,1, 1, 0x69,0x64,0, 0,0,0,23, 0,0,0,0]

def insertData (n : UInt8) : Bytes :=
  [0x49, 0,0,0,1, 0x4E, 0,1, 0x62, 0,0,0,4, 0,0,0,n]

def insertTx (n : UInt8) (o : Outcomes) : List Step :=
  [⟨.begin, {}⟩, ⟨.xlogData (insertData n), o⟩, ⟨.commit n.toUInt64 n.toUInt64, {}⟩]

example : ((sourceOf (⟨.xlogData relationData, {}⟩ :: insertTx 7 {})).complete.map SourceTx.rows) =
    [[(⟨1, "u", "p", [⟨true, "id", .int4⟩], .keys⟩, ⟨.insert [.int4 7], 1⟩)]] := by decide

end CDC.SourceStream
