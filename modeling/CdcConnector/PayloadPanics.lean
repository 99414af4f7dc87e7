import CdcConnector.RelationPanics
import CdcConnector.SourceStream

/-!
# Payloads that crash the reader

A payload crashes the reader when it is empty, when its relation message is
cut where the decoder does not look, or when, inside a transaction, a tuple of
its row message makes the tuple decoder panic. Everything else is decoded or
refused, so a run goes on exactly as long as no such payload comes.
-/

set_option autoImplicit false

namespace CDC.PayloadPanics
open CDC.Fallible CDC.Event CDC.Decoder CDC.RelationDecoder CDC.TupleDecoder CDC.TupleSyntax
open CDC.TuplePanics CDC.RelationPanics CDC.RowDecoder CDC.ProducerModel CDC.WalReader
open CDC.PartialRun CDC.SourceStream

def RowEnd (isUpdate : Bool) (fields : List Field) (data : Bytes) (r : Option ℕ) : Prop :=
  (RowOverruns isUpdate fields data ∧ r = none) ∨
    ∃ bytes rest vals, data = bytes ++ rest ∧ TupleOf isUpdate fields bytes vals ∧
      r = some bytes.length

def OldEnd (rd : RelationData) (tuples : Bytes) (r : Option ℕ) : Prop :=
  (rd.inner.replicaId = .keys ∧ ∃ tuple, tuples = tagK :: tuple ∧ KeysEnd rd.inner.fields tuple r) ∨
    (rd.inner.replicaId = .row ∧ ∃ tuple, tuples = tagO :: tuple ∧
      RowEnd false rd.inner.fields tuple r)

def NewOverruns (isUpdate : Bool) (rd : RelationData) (tuples : Bytes) : Prop :=
  ∃ tuple, tuples = tagN :: tuple ∧ RowOverruns isUpdate rd.inner.fields tuple

def UpdateOverruns (rd : RelationData) (tuples : Bytes) : Prop :=
  OldEnd rd tuples none ∨ NewOverruns true rd tuples ∨
    ∃ size, OldEnd rd tuples (some size) ∧ size + 1 ≤ tuples.length ∧
      NewOverruns true rd (tuples.drop (size + 1))

def DeleteOverruns (rd : RelationData) (tuples : Bytes) : Prop := OldEnd rd tuples none

/-- A row message of a known relation whose tuples overrun. -/
def RowMessageOverruns (overruns : RelationData → Bytes → Prop) (map : RelationMap) (data : Bytes) :
    Prop :=
  ∃ tag oid tuples rd, data = tag :: (oid ++ tuples) ∧ oid.length = 4 ∧
    map (UInt32.ofNat (BigEndian.ofBytes oid)) = some rd ∧ overruns rd tuples

def Crashing (map : RelationMap) (inTransaction : Bool) (data : Bytes) : Prop :=
  data = [] ∨ (data.head? = some tagR ∧ RelationOverruns data) ∨
    (inTransaction = true ∧
      ((data.head? = some tagI ∧ RowMessageOverruns (NewOverruns false) map data) ∨
        (data.head? = some tagU ∧ RowMessageOverruns UpdateOverruns map data) ∨
        (data.head? = some tagD ∧ RowMessageOverruns DeleteOverruns map data)))

theorem parse_ends (isUpdate : Bool) (fields : List Field) (hfields : fields.length ≤ 65535)
    (data : Bytes) (r : Option ℕ) :
    Ends (TupleDecoder.parse data fields isUpdate) r ↔ RowEnd isUpdate fields data r := by
  cases r with
  | none => simp [Ends, RowEnd, parse_panics_iff data fields isUpdate hfields]
  | some n =>
    simp only [Ends, RowEnd, parse_ok_iff fields hfields, reduceCtorEq, and_false, false_or,
      Option.some.injEq]
    constructor
    · rintro ⟨vals, bytes, rest, hdata, hn, htuple⟩
      exact ⟨bytes, rest, vals, hdata, htuple, hn⟩
    · rintro ⟨bytes, rest, vals, hdata, htuple, hn⟩
      exact ⟨vals, bytes, rest, hdata, hn, htuple⟩

theorem ends_succ (x : Decoded (List PgValue × ℕ)) (r : Option ℕ) :
    Ends (x >>= fun p => .ok (p.1, p.2 + 1)) r ↔ ∃ e, Ends x e ∧ r = e.map (· + 1) := by
  rw [ends_bind]
  constructor
  · rintro (⟨hx, rfl⟩ | ⟨p, hx, h⟩)
    · exact ⟨none, hx, rfl⟩
    · exact ⟨some p.2, ⟨p.1, hx⟩, (ends_ok _ _ r).mp h⟩
  · rintro ⟨e, he, rfl⟩
    cases e with
    | none => exact Or.inl ⟨he, rfl⟩
    | some n =>
      obtain ⟨vals, hx⟩ := he
      exact Or.inr ⟨(vals, n), hx, vals, rfl⟩

theorem oldTuple_eq (rd : RelationData) (tag : UInt8) (tuple : Bytes) :
    getOldTupleData (tag :: tuple) rd =
      if tag = tagK then
        if rd.inner.replicaId ≠ .keys then fail (.wrongOldTupleKind .keys)
        else parseKeys tuple rd.keyFields rd.keyIndexes rd.inner.fields.length >>= fun p =>
          .ok (p.1, p.2 + 1)
      else if tag = tagO then
        if rd.inner.replicaId ≠ .row then fail (.wrongOldTupleKind .row)
        else TupleDecoder.parse tuple rd.inner.fields false >>= fun p => .ok (p.1, p.2 + 1)
      else fail (.wrongOldTupleKey tag) := by
  have hi : (index (tag :: tuple) 0 : Decoded UInt8) = .ok tag := rfl
  have hs : (sliceFrom (tag :: tuple) 1 : Decoded Bytes) = .ok tuple := sliceFrom_append [tag] tuple
  simp only [getOldTupleData, List.isEmpty_cons, Bool.false_eq_true, if_false, hi, ok_bind, hs]
  rfl

theorem oldEnd_cons (rd : RelationData) (tag : UInt8) (tuple : Bytes) (e : Option ℕ) :
    OldEnd rd (tag :: tuple) e ↔
      (tag = tagK ∧ rd.inner.replicaId = .keys ∧ KeysEnd rd.inner.fields tuple e) ∨
        (tag = tagO ∧ rd.inner.replicaId = .row ∧ RowEnd false rd.inner.fields tuple e) := by
  simp only [OldEnd, List.cons.injEq]
  constructor
  · rintro (⟨hd, _, ⟨rfl, rfl⟩, h⟩ | ⟨hd, _, ⟨rfl, rfl⟩, h⟩)
    · exact Or.inl ⟨rfl, hd, h⟩
    · exact Or.inr ⟨rfl, hd, h⟩
  · rintro (⟨rfl, hd, h⟩ | ⟨rfl, hd, h⟩)
    · exact Or.inl ⟨hd, tuple, ⟨rfl, rfl⟩, h⟩
    · exact Or.inr ⟨hd, tuple, ⟨rfl, rfl⟩, h⟩

theorem oldTuple_ends (rd : RelationData) (hbuilt : Built rd) (tuples : Bytes) (r : Option ℕ) :
    Ends (getOldTupleData tuples rd) r ↔ ∃ e, OldEnd rd tuples e ∧ r = e.map (· + 1) := by
  have hlt := hbuilt.fields_lt
  have htags : tagO ≠ tagK := by decide
  cases tuples with
  | nil =>
    refine iff_of_false (ends_fail .truncatedInput r) ?_
    simp [OldEnd]
  | cons tag tuple =>
    rw [oldTuple_eq]
    simp only [oldEnd_cons]
    by_cases hk : tag = tagK
    · simp only [hk, htags.symm, if_true, true_and, false_and, or_false]
      by_cases hd : rd.inner.replicaId = .keys
      · rw [if_neg (not_not.mpr hd), ends_succ, hbuilt.keyFields_eq, hbuilt.keyIndexes_eq]
        simp only [parseKeys_ends, hd, true_and]
      · rw [if_pos hd]
        refine iff_of_false (ends_fail _ r) ?_
        simp [hd]
    by_cases ho : tag = tagO
    · simp only [ho, htags, if_true, if_false, true_and, false_and, false_or]
      by_cases hd : rd.inner.replicaId = .row
      · rw [if_neg (not_not.mpr hd), ends_succ]
        simp only [parse_ends false rd.inner.fields (by omega), hd, true_and]
      · rw [if_pos hd]
        refine iff_of_false (ends_fail _ r) ?_
        simp [hd]
    · rw [if_neg hk, if_neg ho]
      refine iff_of_false (ends_fail _ r) ?_
      simp [hk, ho]

theorem oldTuple_panics_iff (rd : RelationData) (hbuilt : Built rd) (tuples : Bytes) :
    getOldTupleData tuples rd = panicked ↔ OldEnd rd tuples none := by
  have hold := oldTuple_ends rd hbuilt tuples none
  simp only [Ends] at hold
  rw [hold]
  simp

theorem oldTuple_ok_iff (rd : RelationData) (hbuilt : Built rd) (tuples : Bytes) (n : ℕ) :
    (∃ vals, getOldTupleData tuples rd = .ok (vals, n)) ↔
      ∃ size, OldEnd rd tuples (some size) ∧ n = size + 1 := by
  have hold := oldTuple_ends rd hbuilt tuples (some n)
  simp only [Ends] at hold
  rw [hold]
  constructor
  · rintro ⟨e, he, hn⟩
    obtain ⟨size, rfl, rfl⟩ := Option.map_eq_some_iff.mp hn.symm
    exact ⟨size, he, rfl⟩
  · rintro ⟨size, he, rfl⟩
    exact ⟨some size, he, rfl⟩

theorem oldTuple_new_iff (rd : RelationData) (tuples : Bytes) :
    NewOverruns true rd tuples ↔
      getOldTupleData tuples rd = fail (.wrongOldTupleKey tagN) ∧ NewOverruns true rd tuples := by
  refine ⟨fun h => ⟨?_, h⟩, And.right⟩
  obtain ⟨tuple, rfl, _⟩ := h
  rw [oldTuple_eq]
  rfl

theorem newTuple_panics_iff (rd : RelationData) (hbuilt : Built rd) (tuples : Bytes)
    (isUpdate : Bool) :
    getNewTupleData tuples rd.inner.fields isUpdate = panicked ↔ NewOverruns isUpdate rd tuples := by
  have hlt := hbuilt.fields_lt
  cases tuples with
  | nil =>
    have he : getNewTupleData [] rd.inner.fields isUpdate = fail .truncatedInput := rfl
    rw [he]
    simp [NewOverruns]
  | cons tag tuple =>
    have hi : (index (tag :: tuple) 0 : Decoded UInt8) = .ok tag := rfl
    have hs : (sliceFrom (tag :: tuple) 1 : Decoded Bytes) = .ok tuple := sliceFrom_append [tag] tuple
    simp only [getNewTupleData, List.isEmpty_cons, Bool.false_eq_true, if_false, hi, ok_bind]
    by_cases hn : tag = tagN
    · rw [if_neg (not_not.mpr hn), hs, ok_bind, bind_panics_iff,
        parse_panics_iff tuple rd.inner.fields isUpdate (by omega)]
      simp [NewOverruns, hn]
    · rw [if_pos hn]
      simp [NewOverruns, hn]

theorem oldOrEmpty_panics_iff {α : Type} (x : Decoded (List PgValue × ℕ))
    (g : List PgValue × ℕ → Decoded α) :
    (oldOrEmpty x >>= g) = panicked ↔
      x = panicked ∨ (∃ p, x = .ok p ∧ g p = panicked) ∨
        (x = fail (.wrongOldTupleKey tagN) ∧ g ([], 0) = panicked) := by
  cases x with
  | ok p => simp [oldOrEmpty, fail]
  | error x =>
    cases x with
    | panic => exact iff_of_true rfl (Or.inl rfl)
    | error e =>
      by_cases he : e = .wrongOldTupleKey tagN
      · subst he
        simp [oldOrEmpty, fail, panicked]
      · have hkept : oldOrEmpty (.error (.error e)) = fail e := by
          cases e with
          | wrongOldTupleKey b =>
            have hb : b ≠ tagN := fun h => he (h ▸ rfl)
            simp [oldOrEmpty, hb, fail]
          | _ => rfl
        rw [hkept]
        simp [fail, panicked, he]

section Message
variable (tag : UInt8) (oid tuples : Bytes) (hoid : oid.length = 4)
include hoid

theorem message_tuples (n : ℕ) :
    (sliceFrom (tag :: (oid ++ tuples)) (n + 5) : Decoded Bytes) = sliceFrom tuples n := by
  have hs := sliceFrom_shift (ε := DecoderError) (tag :: oid) tuples n
  rwa [List.length_cons, hoid, Nat.add_comm] at hs

theorem message_length : (tag :: (oid ++ tuples)).length = 5 + tuples.length := by
  rw [List.length_cons, List.length_append, hoid]
  omega

end Message

theorem rowMessage_panics_iff {α : Type} (data : Bytes) (map : RelationMap)
    (body : Oid → RelationData → Bytes → Decoded α) (overruns : RelationData → Bytes → Prop)
    (hbody : ∀ tag oid tuples rd, data = tag :: (oid ++ tuples) → oid.length = 4 →
      map (UInt32.ofNat (BigEndian.ofBytes oid)) = some rd →
      (body (UInt32.ofNat (BigEndian.ofBytes oid)) rd tuples = panicked ↔ overruns rd tuples)) :
    (if data.length < 5 then fail .truncatedInput
      else do
        let relationOid ← readU32 data 1
        let relation ← lookup map relationOid
        let rest ← sliceFrom data 5
        body relationOid relation rest) = panicked ↔ RowMessageOverruns overruns map data := by
  by_cases hmin : data.length < 5
  · rw [if_pos hmin]
    refine iff_of_false (fail_ne_panicked _) ?_
    rintro ⟨tag, oid, tuples, rd, rfl, hoid, _⟩
    rw [message_length tag oid tuples hoid] at hmin
    omega
  obtain ⟨tag, oid, tuples, rfl, hoid⟩ := split_oid hmin
  obtain ⟨x, hx, hn⟩ := readU32_after_tag tag oid tuples hoid
  have hoidx : x = UInt32.ofNat (BigEndian.ofBytes oid) := by rw [← hn, UInt32.ofNat_toNat]
  have htuples := message_tuples tag oid tuples hoid 0
  rw [Nat.zero_add, sliceFrom_ok tuples 0 (Nat.zero_le _), List.drop_zero] at htuples
  have hsplit : RowMessageOverruns overruns map (tag :: (oid ++ tuples)) ↔
      ∃ rd, map x = some rd ∧ overruns rd tuples := by
    constructor
    · rintro ⟨tag', oid', tuples', rd, heq, hoid', hmap, h⟩
      obtain ⟨rfl, htail⟩ := List.cons.inj heq
      obtain ⟨rfl, rfl⟩ := List.append_inj htail (hoid.trans hoid'.symm)
      exact ⟨rd, hoidx ▸ hmap, h⟩
    · rintro ⟨rd, hmap, h⟩
      exact ⟨tag, oid, tuples, rd, rfl, hoid, hoidx ▸ hmap, h⟩
  rw [if_neg hmin, hx, ok_bind, hsplit]
  cases hmap : map x with
  | none =>
    rw [lookup, hmap]
    refine iff_of_false (fail_ne_panicked _) ?_
    simp
  | some rd =>
    rw [lookup_ok map x rd hmap, ok_bind, htuples, ok_bind, hoidx,
      hbody tag oid tuples rd rfl hoid (hoidx ▸ hmap)]
    simp

section Known
variable (data : Bytes) (map : RelationMap) (hmap : ∀ oid rd, map oid = some rd → Built rd)
include hmap

theorem insert_panics_iff :
    Insert.parse data map = panicked ↔ RowMessageOverruns (NewOverruns false) map data := by
  apply rowMessage_panics_iff data map
  intro tag oid tuples rd _ _ hrd
  rw [bind_panics_iff, newTuple_panics_iff rd (hmap _ rd hrd)]
  simp

theorem delete_panics_iff :
    Delete.parse data map = panicked ↔ RowMessageOverruns DeleteOverruns map data := by
  apply rowMessage_panics_iff data map
  intro tag oid tuples rd _ _ hrd
  rw [bind_panics_iff, oldTuple_panics_iff rd (hmap _ rd hrd), DeleteOverruns]
  simp

theorem update_panics_iff :
    Update.parse data map = panicked ↔ RowMessageOverruns UpdateOverruns map data := by
  apply rowMessage_panics_iff data map
  intro tag oid tuples rd hdata hoid hrd
  have hbuilt := hmap _ rd hrd
  have hnew : ∀ n, (sliceFrom data (n + 5) : Decoded Bytes) = sliceFrom tuples n := by
    rw [hdata]
    exact message_tuples tag oid tuples hoid
  have hlen : data.length = 5 + tuples.length := by
    rw [hdata, message_length tag oid tuples hoid]
  rw [oldOrEmpty_panics_iff]
  have hbehind : ∀ p : List PgValue × ℕ,
      ((if data.length < p.2 + 5 then fail .truncatedInput
        else sliceFrom data (p.2 + 5) >>= fun newStart =>
          getNewTupleData newStart rd.inner.fields true >>= fun newData =>
            .ok (⟨.update p.1 newData, UInt32.ofNat (BigEndian.ofBytes oid)⟩, rd) :
          Decoded (ChangeEvent × RelationData)) = panicked) ↔
        p.2 ≤ tuples.length ∧ NewOverruns true rd (tuples.drop p.2) := by
    intro p
    by_cases hend : p.2 ≤ tuples.length
    · rw [if_neg (by omega), hnew, sliceFrom_ok tuples _ hend, ok_bind, bind_panics_iff,
        newTuple_panics_iff rd hbuilt]
      simp [hend]
    · rw [if_pos (by omega)]
      simp [hend]
  rw [UpdateOverruns]
  refine or_congr (oldTuple_panics_iff rd hbuilt tuples) ?_
  rw [or_comm]
  refine or_congr ?_ ?_
  · rw [oldTuple_new_iff rd tuples]
    refine and_congr_right fun _ => ?_
    exact (hbehind ([], 0)).trans (by simp)
  · constructor
    · rintro ⟨⟨vals, n⟩, hx, hpanic⟩
      obtain ⟨size, hend, rfl⟩ := (oldTuple_ok_iff rd hbuilt tuples n).mp ⟨vals, hx⟩
      exact ⟨size, hend, (hbehind (vals, size + 1)).mp hpanic⟩
    · rintro ⟨size, hend, hover⟩
      obtain ⟨vals, hx⟩ := (oldTuple_ok_iff rd hbuilt tuples (size + 1)).mpr ⟨size, hend, rfl⟩
      exact ⟨(vals, size + 1), hx, (hbehind (vals, size + 1)).mpr hover⟩

end Known

section Run
variable {P : Type} [Producer P]

def Known (s : Reader P) : Prop := ∀ oid rd, s.relationMap oid = some rd → Built rd

/-- The payload of the step, if it has one, is decoded or refused. -/
def Harmless (s : Reader P) (i : Step) : Prop :=
  ∀ data, i.event = .xlogData data → ¬ Crashing s.relationMap s.currentlyInTransaction data

theorem action_built {map : RelationMap} {event : ReplicationEvent} {rd : RelationData}
    (h : action map event = .relation rd) : Built rd := by
  cases event with
  | xlogData data =>
    cases data with
    | nil => cases h
    | cons tag rest =>
      by_cases htag : tag = tagR
      · simp only [action, if_pos htag] at h
        cases hp : RelationDecoder.parse (tag::rest) with
        | ok relation =>
          rw [hp] at h
          cases h
          exact parse_built _ _ hp
        | error x =>
          rw [hp] at h
          cases x <;> cases h
      · simp only [action, if_neg htag] at h
        split at h <;> cases h
  | commit lsn endLsn => cases h
  | begin => cases h
  | keepAlive => cases h
  | message => cases h
  | other => cases h

theorem known_step (i : Step) (s s' : Reader P) (hs : Known s) (h : step i s = some s') :
    Known s' := by
  rcases step_cases i s s' h with
    ⟨_, rfl⟩ | ⟨rd, ha, rfl⟩ | ⟨result, _, h⟩ | ⟨_, rfl⟩ | ⟨lsn, endLsn, _, rfl⟩
  · exact hs
  · intro oid relation hrel
    simp only [onRelationMessage] at hrel
    by_cases hoid : oid = rd.inner.relationOid
    · rw [hoid, Function.update_self, Option.some.injEq] at hrel
      exact hrel ▸ action_built ha
    · rw [Function.update_of_ne hoid] at hrel
      exact hs oid relation hrel
  · rw [Known, onChange_relationMap _ _ _ _ h]
    exact hs
  · rw [Known, onBegin_relationMap]
    exact hs
  · rw [Known, onCommit_relationMap]
    exact hs

theorem settle_isSome_iff {α : Type} (x : Decoded α) :
    (settle x).isSome = true ↔ x ≠ panicked := by
  cases x with
  | ok a => simp [settle]
  | error x =>
    cases x with
    | panic => simp [settle, panicked]
    | error e => simp [settle, panicked]

/-- A row message is decoded only inside a transaction. -/
theorem row_isSome_iff (o : Outcomes) (tag : UInt8) (rest : Bytes)
    (parse : Bytes → RelationMap → Decoded (ChangeEvent × RelationData)) (s : Reader P)
    (hr : tag ≠ tagR) (hparse : rowParser tag = some parse) :
    (onXLogData o (tag::rest) s).isSome = true ↔
      ¬ (s.currentlyInTransaction = true ∧ parse (tag::rest) s.relationMap = panicked) := by
  simp only [onXLogData, if_neg hr, hparse]
  by_cases hflag : s.currentlyInTransaction = true
  · simp [hflag, settle_isSome_iff]
  · simp [hflag]

theorem payload_isSome_iff (o : Outcomes) (data : Bytes) (s : Reader P) (hs : Known s) :
    (onXLogData o data s).isSome = true ↔
      ¬ Crashing s.relationMap s.currentlyInTransaction data := by
  cases data with
  | nil => simp [onXLogData, Crashing]
  | cons tag rest =>
    have hcons : tag::rest ≠ [] := by simp
    by_cases hr : tag = tagR
    · have htags : tagR ≠ tagI ∧ tagR ≠ tagU ∧ tagR ≠ tagD := by decide
      rw [Crashing, ← relation_panics_iff]
      subst hr
      simp only [onXLogData, if_true, hcons, false_or, List.head?_cons, Option.some.injEq, htags,
        false_and, or_false, and_false, true_and, or_false]
      cases hp : RelationDecoder.parse (tagR::rest) with
      | ok relation => simp [settle]
      | error x => cases x <;> simp [settle, panicked]
    by_cases hi : tag = tagI
    · have htags : tagI ≠ tagR ∧ tagI ≠ tagU ∧ tagI ≠ tagD := by decide
      rw [row_isSome_iff o tag rest Insert.parse s hr (by rw [hi]; rfl),
        insert_panics_iff (tag::rest) s.relationMap hs]
      simp [Crashing, hi, htags]
    by_cases hd : tag = tagD
    · have htags : tagD ≠ tagR ∧ tagD ≠ tagI ∧ tagD ≠ tagU := by decide
      rw [row_isSome_iff o tag rest Delete.parse s hr (by rw [hd]; rfl),
        delete_panics_iff (tag::rest) s.relationMap hs]
      simp [Crashing, hd, htags]
    by_cases hu : tag = tagU
    · have htags : tagU ≠ tagR ∧ tagU ≠ tagI ∧ tagU ≠ tagD := by decide
      rw [row_isSome_iff o tag rest Update.parse s hr (by rw [hu]; rfl),
        update_panics_iff (tag::rest) s.relationMap hs]
      simp [Crashing, hu, htags]
    · simp [onXLogData, rowParser, Crashing, hr, hi, hd, hu]

theorem step_isSome_iff (i : Step) (s : Reader P) (hs : Known s) :
    (step i s).isSome = true ↔ Harmless s i := by
  obtain ⟨event, o⟩ := i
  cases event with
  | xlogData data =>
    rw [step, payload_isSome_iff o data s hs]
    simp [Harmless]
  | begin => simp [step, Harmless]
  | commit lsn endLsn => simp [step, Harmless]
  | keepAlive => simp [step, Harmless]
  | message => simp [step, Harmless]
  | other => simp [step, Harmless]

/-- The reader gets to the end of its input exactly where no payload crashes
it in the state that payload finds. -/
theorem no_crash_iff (producer : P) (steps : List Step) :
    (run step steps (Reader.init producer)).isSome = true ↔
      Guarded step Harmless steps (Reader.init producer) :=
  run_isSome_iff Known (fun i s t hs h => known_step i s t hs h) (fun i s hs => step_isSome_iff i s hs)
    steps (Reader.init producer) (fun _ _ h => by cases h)

end Run

theorem empty_payload_crashes :
    run step [⟨.xlogData [], {}⟩] (Reader.init (KafkaProducer.new "cdc" "k")) = none := rfl

end CDC.PayloadPanics
