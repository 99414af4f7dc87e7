import Mathlib.Data.List.Induction
import Mathlib.Order.Basic
import CdcConnector.Redelivery
import CdcConnector.TopicOrder

/-!
# The consumer across restarts

One consumer reads the partitions of all its topics, in any order of turns. Its
offsets are committed by the message or in the background, it loses a partition
and gets it back, and it ends by a panic or is killed and is started again over
the same database. It then reads again from the committed offsets. Refused events
and undecodable ones are passed over. While no commit passes the message a
process ended in, the tables are those of every message taken once and in order.
-/

set_option autoImplicit false

namespace CDC.ConsumerRestarts
open CDC.Fallible CDC.Event CDC.SinkModel CDC.SinkStatements CDC.PostgresSink CDC.StatementCache
open CDC.PartialRun (Meets)
open CDC.Replay CDC.Redelivery CDC.SinkTables CDC.SinkPlan CDC.FoundRelations CDC.TableReplay
open CDC.KafkaConsumer (KafkaClient Message Partition receive)
open CDC.TopicOrder (Record call consume consume_call eventOf)

def below (p : Partition) (offset : ℕ) : ℕ := p.messages.countP (fun m => m.offset < offset)

theorem below_mono (p : Partition) (offset offset' : ℕ) (h : offset ≤ offset') :
    below p offset ≤ below p offset' := by
  apply List.countP_mono_left
  intro m _ hm
  exact decide_eq_true (Nat.lt_of_lt_of_le (of_decide_eq_true hm) h)

theorem below_end (p : Partition) (position : ℕ) (h : p.next position = none) :
    below p position = p.messages.length := by
  rw [below, List.countP_eq_length]
  intro m hm
  have hbefore := List.find?_eq_none.mp h m hm
  simpa using hbefore

theorem next_at (p : Partition) (position : ℕ) (m : Message) (h : p.next position = some m) :
    p.messages[below p position]? = some m ∧ below p (m.offset + 1) = below p position + 1 := by
  obtain ⟨hm, pre, post, heq, hpre⟩ := List.find?_eq_some_iff_append.mp h
  have hm : position ≤ m.offset := of_decide_eq_true hm
  have hgrow := p.increasing
  rw [heq, List.pairwise_append, List.pairwise_cons] at hgrow
  have hbefore : ∀ n ∈ pre, n.offset < position := by
    intro n hn
    have hle := hpre n hn
    simp only [Bool.not_eq_true', decide_eq_false_iff_not, not_le] at hle
    exact hle
  have hcount : ∀ offset, position ≤ offset → offset ≤ m.offset + 1 →
      below p offset = pre.length + if m.offset < offset then 1 else 0 := by
    intro offset hle hlt
    have hall : pre.countP (fun n => n.offset < offset) = pre.length := by
      rw [List.countP_eq_length]
      exact fun n hn => decide_eq_true (Nat.lt_of_lt_of_le (hbefore n hn) hle)
    have hnone : post.countP (fun n => n.offset < offset) = 0 := by
      rw [List.countP_eq_zero]
      intro n hn
      have hafter := hgrow.2.1.1 n hn
      simp only [decide_eq_true_eq]
      omega
    rw [below, heq, List.countP_append, List.countP_cons, hall, hnone]
    simp
  have hhere := hcount position (Nat.le_refl _) (by omega)
  have hnext := hcount (m.offset + 1) (by omega) (Nat.le_refl _)
  rw [if_neg (by omega), Nat.add_zero] at hhere
  rw [if_pos (Nat.lt_succ_self _)] at hnext
  refine ⟨?_, by rw [hnext, hhere]⟩
  rw [hhere, heq, List.getElem?_append_right (Nat.le_refl _), Nat.sub_self]
  rfl

section Stopping
variable {ω σ : Type*} (act : ω → Option (σ → σ))

theorem carriedOut_length (xs : List ω) : (carriedOut act xs).length ≤ xs.length := by
  induction xs with
  | nil => exact Nat.le_refl _
  | cons x xs ih =>
    unfold carriedOut
    cases act x with
    | none => exact Nat.zero_le _
    | some f => exact Nat.succ_le_succ ih

theorem carriedOut_get (xs : List ω) (n : ℕ) (x : ω) (f : σ → σ)
    (hn : n ≤ (carriedOut act xs).length) (hx : xs[n]? = some x) (hf : act x = some f) :
    (carriedOut act xs)[n]? = some f := by
  induction xs generalizing n with
  | nil => cases hx
  | cons y xs ih =>
    unfold carriedOut at hn ⊢
    cases n with
    | zero =>
      cases hx
      rw [hf]
      rfl
    | succ n =>
      cases hy : act y with
      | none =>
        rw [hy] at hn
        cases hn
      | some g =>
        rw [hy] at hn
        exact ih n (Nat.le_of_succ_le_succ hn) hx

theorem carriedOut_all (xs : List ω) (h : ∀ x ∈ xs, (act x).isSome = true) :
    carriedOut act xs = xs.map (fun x => (act x).getD id) := by
  induction xs with
  | nil => rfl
  | cons x xs ih =>
    obtain ⟨f, hf⟩ := Option.isSome_iff_exists.mp (h x List.mem_cons_self)
    rw [carriedOut, List.map_cons, hf, ih (fun y hy => h y (List.mem_cons_of_mem x hy))]
    rfl

end Stopping

/-- The process with its sink, and the offsets of its partitions: behind the last
message it finished, behind the last one handed to it, and committed. -/
structure Consumer (ι D : Type) where
  /-- As the last message left it; its database outlives the process. -/
  sink : Sink D
  running : Bool
  position : ι → ℕ
  stored : ι → ℕ
  committed : ι → ℕ

/-- The process may be killed in a message. The client commits in the background
what was handed over, sooner or later. -/
inductive Turn (ι : Type) where
  | poll (t : ι) (commitOk : Bool)
  | killed (t : ι)
  | autoCommit (t : ι) (offset : ℕ)
  | kafkaError
  | rebalance (t : ι)
  | restart
  deriving DecidableEq

section Model
variable {ι D : Type} [DecidableEq ι] [PostgresClient D]

def left (client : KafkaClient) (r : Record) (sink : Sink D) : Sink D :=
  match call client r with
  | some (.event event) => (onEvent event sink).1
  | some (.relation relation) => (onRelation relation sink).1
  | none => sink

def start (known : Oid → Option Relation) (d : D) : Consumer ι D :=
  ⟨new d known, true, fun _ => 0, fun _ => 0, fun _ => 0⟩

variable (client : KafkaClient) (known : Oid → Option Relation) (partitions : ι → Partition)

def record (t : ι) (m : Message) : Record := ⟨(partitions t).topic, m.payload⟩

def takeMessage (t : ι) (commitOk : Bool) (m : Message) (s : Consumer ι D) : Consumer ι D :=
  match receive client (partitions t).topic m.payload s.sink with
  | some (sink, ok) =>
    { sink := sink
      running := true
      position := Function.update s.position t (m.offset + 1)
      stored := Function.update s.stored t (m.offset + 1)
      committed := if ok && commitOk then Function.update s.committed t (m.offset + 1)
        else s.committed }
  | none =>
    { s with
      sink := left client (record partitions t m) s.sink
      running := false
      stored := Function.update s.stored t (m.offset + 1) }

def kill (t : ι) (m : Message) (s : Consumer ι D) : Consumer ι D :=
  { s with running := false, stored := Function.update s.stored t (m.offset + 1) }

def turn (i : Turn ι) (s : Consumer ι D) : Consumer ι D :=
  match i with
  | .poll t commitOk =>
    if s.running then
      match (partitions t).next (s.position t) with
      | some m => takeMessage client partitions t commitOk m s
      | none => s
    else s
  | .killed t =>
    if s.running then ((partitions t).next (s.position t)).elim s (fun m => kill t m s) else s
  | .autoCommit t offset =>
    { s with
      committed := Function.update s.committed t (max (s.committed t) (min offset (s.stored t))) }
  | .kafkaError => s
  | .rebalance t =>
    { s with
      position := Function.update s.position t (s.committed t)
      stored := Function.update s.stored t (s.committed t) }
  | .restart => ⟨new s.sink.client known, true, s.committed, s.committed, s.committed⟩

def turns (is : List (Turn ι)) (s : Consumer ι D) : Consumer ι D :=
  is.foldl (fun s i => turn client known partitions i s) s

/-- A commit in the background passes no message that a process ended in. -/
def Finished (s : Consumer ι D) : Turn ι → Prop
  | .autoCommit t offset => min offset (s.stored t) ≤ s.position t
  | _ => True

def AllFinished (is : List (Turn ι)) (s : Consumer ι D) : Prop :=
  Meets (fun i s => some (turn client known partitions i s)) Finished is s

instance (s : Consumer ι D) : (i : Turn ι) → Decidable (Finished s i)
  | .autoCommit t offset => inferInstanceAs (Decidable (min offset (s.stored t) ≤ s.position t))
  | .poll _ _ => isTrue trivial
  | .killed _ => isTrue trivial
  | .kafkaError => isTrue trivial
  | .rebalance _ => isTrue trivial
  | .restart => isTrue trivial

instance (is : List (Turn ι)) (s : Consumer ι D) :
    Decidable (AllFinished client known partitions is s) :=
  inferInstanceAs (Decidable (Meets _ _ _ _))

variable (svc : Service)

def messageEffect (r : Record) : Option (Tables → Tables) :=
  match call client r with
  | some (.event event) => eventEffect svc known event
  | _ => some id

def effects (t : ι) : List (Tables → Tables) :=
  carriedOut (fun m => messageEffect client known svc (record partitions t m)) (partitions t).messages

def eventsOf (t : ι) : List ChangeEvent :=
  (partitions t).messages.filterMap (fun m => (call client (record partitions t m)).bind eventOf)

/-- The relations topic announces the relations that are known, and the events
of the partitions have values in their key columns. -/
structure Settled : Prop where
  announced : ∀ t, ∀ m ∈ (partitions t).messages, ∀ relation,
    call client (record partitions t m) = some (.relation relation) →
      known relation.relationOid = some relation
  keyed : ∀ t, ∀ m ∈ (partitions t).messages, ∀ event,
    call client (record partitions t m) = some (.event event) → eventKeysPresent known event = true

end Model

section Messages
variable {D : Type} [PostgresClient D] {client : KafkaClient} {known : Oid → Option Relation}
  {tables : D → Tables} {svc : Service}

variable (client) in
theorem receive_left (r : Record) (sink : Sink D) :
    (receive client r.topic r.payload sink = none ↔
        ∃ event, call client r = some (.event event) ∧ (onEvent event sink).2 = panicked) ∧
      ∀ sink' ok, receive client r.topic r.payload sink = some (sink', ok) →
        sink' = left client r sink := by
  have hconsume := consume_call client r sink
  unfold consume at hconsume
  unfold left
  cases hc : call client r with
  | none =>
    rw [hc, Option.elim_none] at hconsume
    obtain ⟨p, hp, hsink⟩ := Option.map_eq_some_iff.mp hconsume
    refine ⟨by rw [hp]; simp, fun sink' ok h => ?_⟩
    rw [h, Option.some.injEq] at hp
    rw [← hp] at hsink
    exact hsink
  | some c =>
    rw [hc, Option.elim_some] at hconsume
    cases c with
    | relation relation =>
      obtain ⟨p, hp, hsink⟩ := Option.map_eq_some_iff.mp hconsume
      refine ⟨by rw [hp]; simp, fun sink' ok h => ?_⟩
      rw [h, Option.some.injEq] at hp
      rw [← hp] at hsink
      exact hsink
    | event event =>
      by_cases hp : (onEvent event sink).2 = panicked
      · have hnone : step (.event event) sink = none := by
          unfold step
          dsimp only
          split
          · rfl
          · next hne heq =>
            rw [heq] at hp
            exact absurd hp hne
        rw [hnone, Option.map_eq_none_iff] at hconsume
        refine ⟨⟨fun _ => ⟨event, rfl, hp⟩, fun _ => hconsume⟩, fun sink' ok h => ?_⟩
        rw [hconsume] at h
        cases h
      · rw [step_taken event sink hp] at hconsume
        obtain ⟨p, hr, hsink⟩ := Option.map_eq_some_iff.mp hconsume
        refine ⟨?_, fun sink' ok h => ?_⟩
        · rw [hr]
          simpa using hp
        · rw [h, Option.some.injEq] at hr
          rw [← hr] at hsink
          exact hsink

variable (client) in
/-- A message does to the tables what its effect says, and leaves the sink
ready. -/
theorem message_did (h : Serves tables svc known) (r : Record) (sink : Sink D)
    (hready : Ready svc known sink)
    (hann : ∀ relation, call client r = some (.relation relation) →
      known relation.relationOid = some relation) :
    Did (messageEffect client known svc r) (receive client r.topic r.payload sink = none)
        (tables sink.client) (tables (left client r sink).client) ∧
      Ready svc known (left client r sink) := by
  have hpanics := (receive_left client r sink).1
  unfold messageEffect left
  cases hc : call client r with
  | none =>
    rw [hc] at hpanics
    exact ⟨⟨by simp [hpanics], rfl⟩, hready⟩
  | some c =>
    rw [hc] at hpanics
    cases c with
    | relation relation =>
      refine ⟨⟨by simp [hpanics], rfl⟩, ?_⟩
      obtain ⟨p, hholds, hfollows⟩ := hready
      have hsame : latest known (.relation relation) = known := by
        rw [latest, ← hann relation hc, Function.update_eq_self]
      have hnext := holds_relation hholds relation (hann relation hc)
      rw [hsame] at hnext
      exact ⟨p, hnext, hfollows⟩
    | event event =>
      obtain ⟨hdid, hnext⟩ := onEvent_ready h event sink hready
      have hiff : (receive client r.topic r.payload sink = none) ↔
          (onEvent event sink).2 = panicked := by
        rw [hpanics]
        simp
      rw [hiff]
      exact ⟨hdid, hnext⟩

end Messages

section Log
variable {ι σ : Type} [DecidableEq ι]

def logOf (t : ι) (log : List (ι × (σ → σ))) : List (σ → σ) :=
  (log.filter (fun x => x.1 = t)).map Prod.snd

theorem logOf_self (t : ι) (f : σ → σ) (log : List (ι × (σ → σ))) :
    logOf t (log ++ [(t, f)]) = logOf t log ++ [f] := by
  simp [logOf, List.filter_append]

theorem logOf_other (t t' : ι) (f : σ → σ) (log : List (ι × (σ → σ))) (hne : t' ≠ t) :
    logOf t (log ++ [(t', f)]) = logOf t log := by
  simp [logOf, List.filter_append, hne]

end Log

section Run
variable {ι D : Type} [DecidableEq ι] [PostgresClient D] {client : KafkaClient}
  {known : Oid → Option Relation} {partitions : ι → Partition} {tables : D → Tables} {svc : Service}

/-- The database is what the log of effects made of it, and the log of each
partition is a delivery of its effects up to its position. -/
structure Tracked (client : KafkaClient) (known : Oid → Option Relation) (partitions : ι → Partition)
    (tables : D → Tables) (svc : Service) (before : Tables) (s : Consumer ι D)
    (log : List (ι × (Tables → Tables))) : Prop where
  database : tables s.sink.client = applied (log.map Prod.snd) before
  behind : ∀ t, s.committed t ≤ s.position t
  reached : ∀ t, Delivered (effects client known partitions svc t) (logOf t log)
    (below (partitions t) (s.position t))
  ready : s.running = true → Ready svc known s.sink

omit [DecidableEq ι] in
theorem delivered_below {t : ι} {fs : List (Tables → Tables)} {position offset : ℕ}
    (h : Delivered (effects client known partitions svc t) fs (below (partitions t) position))
    (hle : offset ≤ position) :
    Delivered (effects client known partitions svc t) fs (below (partitions t) offset) :=
  .back _ _ _ h (below_mono _ _ _ hle)

omit [PostgresClient D] in
theorem tracked_resumes {before : Tables} {s : Consumer ι D} {log : List (ι × (Tables → Tables))}
    (h : Tracked client known partitions tables svc before s log) (t : ι) :
    Delivered (effects client known partitions svc t) (logOf t log)
      (below (partitions t) (s.committed t)) :=
  delivered_below (h.reached t) (h.behind t)

theorem tracked_start (h : Serves tables svc known) (d : D) :
    Tracked client known partitions tables svc (tables d) (start known d : Consumer ι D) [] := by
  constructor
  · rfl
  · exact fun _ => Nat.le_refl 0
  · intro t
    have hnone : below (partitions t) 0 = 0 := by
      rw [below, List.countP_eq_zero]
      simp
    show Delivered _ _ (below (partitions t) 0)
    rw [hnone]
    exact .start
  · exact fun _ => reached_ready h _ (.new d)

omit [PostgresClient D] in
theorem tracked_taken {before : Tables} {s : Consumer ι D} {log : List (ι × (Tables → Tables))}
    (h : Tracked client known partitions tables svc before s log) (t : ι) (m : Message)
    (hm : (partitions t).next (s.position t) = some m) (f : Tables → Tables)
    (hf : messageEffect client known svc (record partitions t m) = some f) (sink : Sink D)
    (hready : Ready svc known sink) (htables : tables sink.client = f (tables s.sink.client))
    (stored : ι → ℕ) (commits : Bool) :
    Tracked client known partitions tables svc before
      ⟨sink, true, Function.update s.position t (m.offset + 1), stored,
        if commits then Function.update s.committed t (m.offset + 1) else s.committed⟩
      (log ++ [(t, f)]) := by
  obtain ⟨hat, hbelow⟩ := next_at (partitions t) (s.position t) m hm
  have hposition : s.position t ≤ m.offset + 1 := by
    have hle := (KafkaConsumer.next_least (partitions t) (s.position t) m hm).2.1
    omega
  have hcommitted : s.committed t ≤ m.offset + 1 := Nat.le_trans (h.behind t) hposition
  constructor
  · show tables sink.client = _
    rw [htables, h.database, List.map_append, applied_append]
    rfl
  · intro t'
    cases commits with
    | true => exact update_le_update_iff.mpr ⟨Nat.le_refl _, fun j _ => h.behind j⟩ t'
    | false => exact le_update_iff.mpr ⟨hcommitted, fun j _ => h.behind j⟩ t'
  · intro t'
    show Delivered _ _ (below _ (Function.update s.position t (m.offset + 1) t'))
    by_cases ht : t' = t
    · subst ht
      have hreached := h.reached t'
      rw [logOf_self, Function.update_self, hbelow]
      exact .next _ _ f hreached (carriedOut_get _ _ _ m f (delivered_le _ _ hreached) hat hf)
    · rw [logOf_other t' t f log (Ne.symm ht), Function.update_of_ne ht]
      exact h.reached t'
  · exact fun _ => hready

omit [PostgresClient D] in
theorem tracked_ended {before : Tables} {s : Consumer ι D} {log : List (ι × (Tables → Tables))}
    (h : Tracked client known partitions tables svc before s log) (sink : Sink D) (stored : ι → ℕ)
    (htables : tables sink.client = tables s.sink.client) :
    Tracked client known partitions tables svc before ⟨sink, false, s.position, stored, s.committed⟩
      log :=
  ⟨htables.trans h.database, h.behind, h.reached, fun hf => by cases hf⟩

theorem tracked_poll (hserves : Serves tables svc known) (hsettled : Settled client known partitions)
    {before : Tables} (t : ι) (commitOk : Bool) (m : Message) (s : Consumer ι D)
    (log : List (ι × (Tables → Tables)))
    (h : Tracked client known partitions tables svc before s log) (hrun : s.running = true)
    (hm : (partitions t).next (s.position t) = some m) :
    ∃ log', Tracked client known partitions tables svc before
      (takeMessage client partitions t commitOk m s) log' := by
  have hmem := (KafkaConsumer.next_least (partitions t) (s.position t) m hm).1
  obtain ⟨hdid, hready⟩ := message_did client hserves (record partitions t m) s.sink
    (h.ready hrun) (hsettled.announced t m hmem)
  have hleft := (receive_left client (record partitions t m) s.sink).2
  unfold takeMessage
  cases hf : messageEffect client known svc (record partitions t m) with
  | none =>
    rw [hf] at hdid
    have hnone : receive client (partitions t).topic m.payload s.sink = none := hdid.1
    simp only [hnone]
    exact ⟨log, tracked_ended h _ _ hdid.2⟩
  | some f =>
    rw [hf] at hdid
    obtain ⟨⟨sink, ok⟩, hreceive⟩ := Option.ne_none_iff_exists'.mp hdid.1
    have hreceive' : receive client (partitions t).topic m.payload s.sink = some (sink, ok) :=
      hreceive
    simp only [hreceive']
    obtain rfl := hleft sink ok hreceive
    exact ⟨log ++ [(t, f)], tracked_taken h t m hm f hf _ hready hdid.2 _ (ok && commitOk)⟩

theorem tracked_turn (hserves : Serves tables svc known) (hsettled : Settled client known partitions)
    {before : Tables} (i : Turn ι) (s : Consumer ι D) (log : List (ι × (Tables → Tables)))
    (h : Tracked client known partitions tables svc before s log) (hfinished : Finished s i) :
    ∃ log', Tracked client known partitions tables svc before (turn client known partitions i s)
      log' := by
  cases i with
  | kafkaError => exact ⟨log, h⟩
  | restart =>
    exact ⟨log, h.database, fun _ => Nat.le_refl _, tracked_resumes h,
      fun _ => reached_ready hserves _ (.new _)⟩
  | rebalance t =>
    refine ⟨log, h.database, fun t' => ?_, fun t' => ?_, h.ready⟩
    · exact le_update_iff.mpr ⟨Nat.le_refl _, fun j _ => h.behind j⟩ t'
    · show Delivered _ _ (below _ (Function.update s.position t (s.committed t) t'))
      by_cases ht : t' = t
      · subst ht
        rw [Function.update_self]
        exact tracked_resumes h t'
      · rw [Function.update_of_ne ht]
        exact h.reached t'
  | autoCommit t offset =>
    refine ⟨log, h.database, fun t' => ?_, h.reached, h.ready⟩
    exact update_le_iff.mpr ⟨Nat.max_le.mpr ⟨h.behind t, hfinished⟩, fun j _ => h.behind j⟩ t'
  | killed t =>
    simp only [turn]
    split_ifs with hrun
    · cases (partitions t).next (s.position t) with
      | none => exact ⟨log, h⟩
      | some m => exact ⟨log, tracked_ended h s.sink _ rfl⟩
    · exact ⟨log, h⟩
  | poll t commitOk =>
    simp only [turn]
    split_ifs with hrun
    · cases hm : (partitions t).next (s.position t) with
      | none => exact ⟨log, h⟩
      | some m => exact tracked_poll hserves hsettled t commitOk m s log h hrun hm
    · exact ⟨log, h⟩

theorem tracked_turns (hserves : Serves tables svc known)
    (hsettled : Settled client known partitions) {before : Tables} (is : List (Turn ι))
    (s : Consumer ι D) (log : List (ι × (Tables → Tables)))
    (h : Tracked client known partitions tables svc before s log)
    (hfinished : AllFinished client known partitions is s) :
    ∃ log', Tracked client known partitions tables svc before (turns client known partitions is s)
      log' := by
  induction is generalizing s log with
  | nil => exact ⟨log, h⟩
  | cons i is ih =>
    obtain ⟨hi, hrest⟩ := hfinished _ rfl
    obtain ⟨log', h'⟩ := tracked_turn hserves hsettled i s log h hi
    exact ih _ log' h' hrest

theorem tracked_from_start (hserves : Serves tables svc known)
    (hsettled : Settled client known partitions) (d : D) (is : List (Turn ι))
    (hfinished : AllFinished client known partitions is (start known d : Consumer ι D)) :
    ∃ log, Tracked client known partitions tables svc (tables d)
      (turns client known partitions is (start known d)) log :=
  tracked_turns hserves hsettled is _ [] (tracked_start hserves d) hfinished

def Local (f : Tables → Tables) : Prop := f = id ∨ ∃ name g, f = onTable name g

omit [PostgresClient D] in
theorem applied_local (fs : List (Tables → Tables)) (hfs : ∀ f ∈ fs, Local f) (now now' : Tables)
    (name : String) (h : now name = now' name) : applied fs now name = applied fs now' name := by
  induction fs generalizing now now' with
  | nil => exact h
  | cons f fs ih =>
    apply ih (fun g hg => hfs g (List.mem_cons_of_mem f hg)) (f now) (f now')
    rcases hfs f List.mem_cons_self with rfl | ⟨name', g, rfl⟩
    · exact h
    · unfold onTable
      by_cases hname : name = name'
      · subst hname
        rw [Function.update_self, Function.update_self, h]
      · rw [Function.update_of_ne hname, Function.update_of_ne hname]
        exact h

theorem applied_own (t : ι) (name : String) (log : List (ι × (Tables → Tables)))
    (hlocal : ∀ x ∈ log, Local x.2)
    (hspares : ∀ x ∈ log, x.1 ≠ t → ∀ now, x.2 now name = now name) (before : Tables) :
    applied (log.map Prod.snd) before name = applied (logOf t log) before name := by
  induction log using List.reverseRecOn with
  | nil => rfl
  | append_singleton log x ih =>
    obtain ⟨t', f⟩ := x
    have ih := ih (fun y hy => hlocal y (List.mem_append_left _ hy))
      (fun y hy => hspares y (List.mem_append_left _ hy))
    rw [List.map_append, applied_append]
    by_cases ht : t' = t
    · subst ht
      rw [logOf_self, applied_append]
      exact applied_local [f] (fun g hg => by
        rw [List.mem_singleton.mp hg]
        exact hlocal (t', f) (by simp)) _ _ name ih
    · rw [logOf_other t t' f log ht]
      exact (hspares (t', f) (by simp) ht _).trans ih

omit [DecidableEq ι] in
theorem effects_of_event (t : ι) (f : Tables → Tables)
    (hf : f ∈ effects client known partitions svc t) :
    f = id ∨ ∃ m ∈ (partitions t).messages, ∃ event,
      call client (record partitions t m) = some (.event event) ∧
        eventEffect svc known event = some f := by
  obtain ⟨m, hm, hact⟩ := carriedOut_mem _ _ f hf
  unfold messageEffect at hact
  split at hact
  · next event hc => exact Or.inr ⟨m, hm, event, hc, hact⟩
  · exact Or.inl (Option.some.inj hact).symm

omit [DecidableEq ι] in
theorem effects_last_wins (hserves : Serves tables svc known)
    (hsettled : Settled client known partitions) (t : ι) :
    LastWins (effects client known partitions svc t) := by
  have hsome : ∀ f ∈ effects client known partitions svc t, f = id ∨ ∃ event,
      eventKeysPresent known event = true ∧ eventEffect svc known event = some f := by
    intro f hf
    refine (effects_of_event t f hf).imp id ?_
    rintro ⟨m, hm, event, hc, heff⟩
    exact ⟨event, hsettled.keyed t m hm event hc, heff⟩
  have hpair : ∀ e e' f f', eventKeysPresent known e = true → eventKeysPresent known e' = true →
      eventEffect svc known e = some f → eventEffect svc known e' = some f' → LastWins [f, f'] := by
    intro e e' f f' hk hk' hf hf'
    have hwins := events_last_wins hserves [e, e'] (by
      intro event hmem
      simp only [List.mem_cons, List.not_mem_nil, or_false] at hmem
      rcases hmem with rfl | rfl
      · exact hk
      · exact hk')
    simpa only [carriedOut, hf, hf'] using hwins
  constructor
  · intro f hf s
    rcases hsome f hf with rfl | ⟨e, hk, he⟩
    · rfl
    · exact (hpair e e f f hk hk he he).again f (by simp) s
  · intro f hf f' hf' s
    rcases hsome f hf with rfl | ⟨e, hk, he⟩
    · rfl
    · rcases hsome f' hf' with rfl | ⟨e', hk', he'⟩
      · exact (hpair e e f f hk hk he he).again f (by simp) s
      · exact (hpair e e' f f' hk hk' he he').between f (by simp) f' (by simp) s

theorem eventEffect_local (event : ChangeEvent) (f : Tables → Tables)
    (hf : eventEffect svc known event = some f) :
    f = id ∨ ∃ rel g, known event.rel = some rel ∧ f = onTable rel.name g := by
  have hwhole := @effect_table svc (fun _ rel => known event.rel = some rel)
    (event, known event.rel) ⟨fun _ => none, fun _ => none⟩ (fun _ _ h => (by cases h))
    (fun _ _ h => (by cases h)) (fun _ h => h)
  have hsame : (effect svc event (known event.rel) ⟨fun _ => none, fun _ => none⟩).getD id = f := by
    rw [show effect svc event (known event.rel) ⟨fun _ => none, fun _ => none⟩ = some f from hf]
    rfl
  rw [hsame] at hwhole
  exact hwhole

omit [PostgresClient D] [DecidableEq ι] in
theorem effects_local (t : ι) (f : Tables → Tables)
    (hf : f ∈ effects client known partitions svc t) : Local f := by
  rcases effects_of_event t f hf with rfl | ⟨m, _, event, _, heff⟩
  · exact Or.inl rfl
  · rcases eventEffect_local event f heff with rfl | ⟨rel, g, _, rfl⟩
    · exact Or.inl rfl
    · exact Or.inr ⟨rel.name, g, rfl⟩

omit [PostgresClient D] [DecidableEq ι] in
theorem messageEffect_eq (r : Record) : messageEffect client known svc r =
    ((call client r).bind eventOf).elim (some id) (eventEffect svc known) := by
  unfold messageEffect
  cases call client r with
  | none => rfl
  | some c => cases c <;> rfl

omit [DecidableEq ι] in
theorem applied_effects (hserves : Serves tables svc known) (t : ι) (d : D) :
    applied (effects client known partitions svc t) (tables d) =
      tables (applyAll (eventsOf client partitions t) (new d known)).1.client := by
  have hmessages : ∀ (ms : List Message) (now : Tables),
      applied (carriedOut (fun m => messageEffect client known svc (record partitions t m)) ms) now =
        applied (carriedOut (eventEffect svc known)
          (ms.filterMap (fun m => (call client (record partitions t m)).bind eventOf))) now := by
    intro ms
    induction ms with
    | nil => exact fun _ => rfl
    | cons m ms ih =>
      intro now
      rw [List.filterMap_cons, carriedOut, messageEffect_eq]
      cases (call client (record partitions t m)).bind eventOf with
      | none => exact ih now
      | some event =>
        rw [Option.elim_some]
        dsimp only
        rw [carriedOut]
        cases eventEffect svc known event with
        | none => rfl
        | some f => exact ih (f now)
  rw [applyAll_tables hserves _ _ (reached_ready hserves _ (.new d))]
  exact hmessages _ _

def Owns (client : KafkaClient) (known : Oid → Option Relation) (partitions : ι → Partition) (t : ι)
    (name : String) : Prop :=
  ∀ t', t' ≠ t → ∀ m ∈ (partitions t').messages, ∀ event rel,
    call client (record partitions t' m) = some (.event event) → known event.rel = some rel →
      rel.name ≠ name

omit [PostgresClient D] in
theorem log_own {before : Tables} {s : Consumer ι D} {log : List (ι × (Tables → Tables))}
    (h : Tracked client known partitions tables svc before s log) (t : ι) (name : String)
    (hown : Owns client known partitions t name) :
    tables s.sink.client name = applied (logOf t log) before name := by
  have hmem : ∀ x ∈ log, x.2 ∈ effects client known partitions svc x.1 := by
    intro x hx
    apply delivered_mem _ _ (h.reached x.1)
    exact List.mem_map_of_mem (List.mem_filter.mpr ⟨hx, decide_eq_true rfl⟩)
  have hspares : ∀ x ∈ log, x.1 ≠ t → ∀ now, x.2 now name = now name := by
    intro x hx hne now
    rcases effects_of_event x.1 x.2 (hmem x hx) with hid | ⟨m, hm, event, hc, heff⟩
    · rw [hid]
      rfl
    · rcases eventEffect_local event x.2 heff with hid | ⟨rel, g, hknown, hon⟩
      · rw [hid]
        rfl
      · rw [hon]
        exact Function.update_of_ne (Ne.symm (hown x.1 hne m hm event rel hc hknown)) _ _
  rw [h.database]
  exact applied_own t name log (fun x hx => effects_local x.1 x.2 (hmem x hx)) hspares before

/-- From where the partition was delivered to, the rest of it leads where the
whole of it leads. -/
theorem table_goes_on (hserves : Serves tables svc known)
    (hsettled : Settled client known partitions) {d : D} {s : Consumer ι D}
    {log : List (ι × (Tables → Tables))}
    (h : Tracked client known partitions tables svc (tables d) s log) (t : ι) (name : String)
    (hown : Owns client known partitions t name) (n : ℕ)
    (hn : Delivered (effects client known partitions svc t) (logOf t log) n) :
    applied ((effects client known partitions svc t).drop n) (tables s.sink.client) name =
      tables (applyAll (eventsOf client partitions t) (new d known)).1.client name := by
  have hcompletes := delivered_completes (effects_last_wins hserves hsettled t) n hn (tables d) n
    (Nat.le_refl n)
  rw [← applied_effects hserves t d, ← hcompletes]
  exact applied_local _ (fun f hf => effects_local t f (List.drop_subset n _ hf)) _ _ name
    (log_own h t name hown)

theorem caught_up (hserves : Serves tables svc known) (hsettled : Settled client known partitions)
    {d : D} {s : Consumer ι D} {log : List (ι × (Tables → Tables))}
    (h : Tracked client known partitions tables svc (tables d) s log) (t : ι) (name : String)
    (hown : Owns client known partitions t name)
    (hend : (partitions t).next (s.position t) = none) :
    tables s.sink.client name =
      tables (applyAll (eventsOf client partitions t) (new d known)).1.client name := by
  have hall := table_goes_on hserves hsettled h t name hown _ (h.reached t)
  have hlen : (effects client known partitions svc t).length ≤ below (partitions t) (s.position t) := by
    rw [below_end _ _ hend]
    exact carriedOut_length _ _
  rwa [List.drop_eq_nil_of_le hlen] at hall

/-- After any turns, restarts and failures in which no commit passes a message
that a process ended in, a table that only one partition writes needs no more
than what comes from the committed offset on, and once the partition is read to
its end the table is as if a sink had taken the events of the partition once. -/
theorem restarts_change_nothing (hserves : Serves tables svc known)
    (hsettled : Settled client known partitions) (d : D) (is : List (Turn ι)) (t : ι) (name : String)
    (hown : Owns client known partitions t name)
    (hfinished : AllFinished client known partitions is (start known d : Consumer ι D))
    (s : Consumer ι D) (hs : s = turns client known partitions is (start known d)) :
    applied ((effects client known partitions svc t).drop (below (partitions t) (s.committed t)))
        (tables s.sink.client) name =
      tables (applyAll (eventsOf client partitions t) (new d known)).1.client name ∧
    ((partitions t).next (s.position t) = none →
      tables s.sink.client name =
        tables (applyAll (eventsOf client partitions t) (new d known)).1.client name) := by
  obtain ⟨log, htracked⟩ := tracked_from_start hserves hsettled d is hfinished
  rw [← hs] at htracked
  exact ⟨table_goes_on hserves hsettled htracked t name hown _ (tracked_resumes htracked t),
    caught_up hserves hsettled htracked t name hown⟩

end Run

def twoPartitions : Bool → Partition
  | false => ⟨"cdc.events.public.users",
      [⟨0, some [0, 4, 2, 2, 0, 2, 97, 0, 2]⟩, ⟨3, some [0, 4, 2, 2, 0, 2, 98, 0, 2]⟩], by simp⟩
  | true => ⟨"cdc.events.public.members", [⟨0, some [0, 4, 2, 14, 2, 2, 0, 4]⟩], by simp⟩

theorem twoPartitions_calls (t : Bool) (m : Message) (hm : m ∈ (twoPartitions t).messages) :
    ∃ event rel, call TopicOrder.wireClient (record twoPartitions t m) = some (.event event) ∧
      eventKeysPresent twoTables event = true ∧ twoTables event.rel = some rel ∧
        rel.name = if t then "members" else "users" := by
  cases t with
  | false =>
    simp only [twoPartitions, List.mem_cons, List.not_mem_nil, or_false] at hm
    rcases hm with rfl | rfl
    · exact ⟨⟨.insert [.int4 1, .text "a"], 1⟩, SourceTable.users, rfl, rfl, rfl, rfl⟩
    · exact ⟨⟨.insert [.int4 1, .text "b"], 1⟩, SourceTable.users, rfl, rfl, rfl, rfl⟩
  | true =>
    simp only [twoPartitions, List.mem_cons, List.not_mem_nil, or_false] at hm
    subst hm
    exact ⟨⟨.insert [.int4 7, .int4 1], 2⟩, members, rfl, rfl, rfl, rfl⟩

theorem twoPartitions_settled : Settled TopicOrder.wireClient twoTables twoPartitions where
  announced t m hm relation hcall := by
    obtain ⟨event, rel, hevent, _⟩ := twoPartitions_calls t m hm
    rw [hevent] at hcall
    cases hcall
  keyed t m hm event hcall := by
    obtain ⟨event', rel, hevent, hkeys, _⟩ := twoPartitions_calls t m hm
    rw [hevent] at hcall
    cases hcall
    exact hkeys

def lateCommit : List (Turn Bool) :=
  [.poll false false, .poll true true, .poll false false, .restart, .poll false false, .killed false,
    .autoCommit false 1, .restart, .kafkaError, .rebalance false, .poll false true, .poll true true]

theorem late_commit_changes_nothing :
    (turns TopicOrder.wireClient twoTables twoPartitions lateCommit
        (start twoTables (⟨fun _ => ∅⟩ : TwoTables))).sink.client.tables "users" =
      (applyAll (eventsOf TopicOrder.wireClient twoPartitions false)
        (new (⟨fun _ => ∅⟩ : TwoTables) twoTables)).1.client.tables "users" := by
  refine (restarts_change_nothing twoTables_served twoPartitions_settled ⟨fun _ => ∅⟩ lateCommit false
    "users" ?_ (by decide +kernel) _ rfl).2 (by decide +kernel)
  intro t ht m hm event rel hcall hknown
  obtain ⟨event', rel', hevent, _, hrel, hname⟩ := twoPartitions_calls t m hm
  rw [hevent] at hcall
  cases hcall
  rw [hknown] at hrel
  cases hrel
  rw [hname, if_pos (by simpa using ht)]
  decide

-- a message that a process was killed in is lost when it is committed behind its back
example :
    (turns TopicOrder.wireClient twoTables twoPartitions
        [.killed true, .autoCommit true 1, .restart, .poll true true]
        (start twoTables (⟨fun _ => ∅⟩ : TwoTables))).sink.client.tables "members" = ∅ := by
  decide +kernel

end CDC.ConsumerRestarts
