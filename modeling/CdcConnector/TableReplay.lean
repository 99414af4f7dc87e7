import CdcConnector.Replay
import CdcConnector.KeyedStatements
import CdcConnector.SinkPlan

/-!
# Replayed events

With fixed relations, what the sink does for an event is fixed. On one table
it is a statement by key, and events of two tables do not meet, so events that
were applied may be applied again.
-/

set_option autoImplicit false

namespace CDC.TableReplay
open CDC.Fallible CDC.Event CDC.SinkModel CDC.SinkStatements CDC.PostgresSink CDC.SinkDatabase
open CDC.SourceTable CDC.SinkTable CDC.StatementCache CDC.KeyedTable CDC.Replay CDC.SinkTables
open CDC.SinkPlan CDC.KeyedStatements

section Runs
variable {D : Type} [PostgresClient D]

/-- The events one after the other, until one ends the process; and whether
none did. -/
def applyAll : List ChangeEvent → Sink D → Sink D × Bool
  | [], s => (s, true)
  | event::events, s =>
    match onEvent event s with
    | (s, .error .panic) => (s, false)
    | (s, _) => applyAll events s

/-- The states of a sink that started with these relations and has taken
events since. -/
inductive Reached (known : Oid → Option Relation) : Sink D → Prop
  | new (d : D) : Reached known (new d known)
  | event (event : ChangeEvent) (k : Sink D) (hk : Reached known k) :
      Reached known (onEvent event k).1

theorem applyAll_panicked (event : ChangeEvent) (events : List ChangeEvent) (k : Sink D)
    (hp : (onEvent event k).2 = panicked) :
    applyAll (event::events) k = ((onEvent event k).1, false) := by
  unfold applyAll
  split
  · next heq => rw [heq]
  · next hne heq =>
    rw [heq] at hp
    exact absurd hp hne

theorem applyAll_goes_on (event : ChangeEvent) (events : List ChangeEvent) (k : Sink D)
    (hp : (onEvent event k).2 ≠ panicked) :
    applyAll (event::events) k = applyAll events (onEvent event k).1 := by
  rw [applyAll]
  split
  · next heq =>
    rw [heq] at hp
    exact absurd rfl hp
  · next heq => rw [heq]

theorem applyAll_reached {known : Oid → Option Relation} (events : List ChangeEvent) (k : Sink D)
    (hk : Reached known k) :
    Reached known (applyAll events k).1 := by
  induction events generalizing k with
  | nil => exact hk
  | cons event events ih =>
    have hnext := Reached.event event k hk
    by_cases hp : (onEvent event k).2 = panicked
    · rw [applyAll_panicked event events k hp]
      exact hnext
    · rw [applyAll_goes_on event events k hp]
      exact ih _ hnext

theorem applyAll_append (events rest : List ChangeEvent) (k : Sink D)
    (hall : (applyAll events k).2 = true) :
    applyAll (events ++ rest) k = applyAll rest (applyAll events k).1 := by
  induction events generalizing k with
  | nil => rfl
  | cons event events ih =>
    by_cases hp : (onEvent event k).2 = panicked
    · rw [applyAll_panicked event events k hp] at hall
      cases hall
    · rw [applyAll_goes_on event events k hp] at hall ⊢
      rw [List.cons_append, applyAll_goes_on event (events ++ rest) k hp]
      exact ih _ hall

/-- The relations are known from the start, each has a table of its own, and
an upsert is only taken where the table has the columns. -/
structure Serves (tables : D → Tables) (svc : Service) (known : Oid → Option Relation) : Prop where
  hosts : Hosts tables svc (fun oid rel => known oid = some rel)
  covers : ∀ oid rel, known oid = some rel → (svc.upserts rel).isSome = true →
    extractFieldsNames rel ⊆ svc.columns rel

def Follows (known : Oid → Option Relation) (p : Prepared) : Prop :=
  ∀ oid, (p.upserts oid).or (known oid) = known oid ∧ (p.deletes oid).or (known oid) = known oid

def Ready (svc : Service) (known : Oid → Option Relation) (s : Sink D) : Prop :=
  ∃ p, Holds svc (fun oid rel => known oid = some rel) s known p ∧ Follows known p

def eventEffect (svc : Service) (known : Oid → Option Relation) (event : ChangeEvent) :
    Option (Tables → Tables) :=
  effect svc event (known event.rel) ⟨fun _ => none, fun _ => none⟩

variable {tables : D → Tables} {svc : Service} {known : Oid → Option Relation}

omit [PostgresClient D] in
theorem prepare_follows (answers : Relation → Option (List Cell → Bool)) (oid : Oid)
    (prepared : Oid → Option Relation) (h : ∀ o, (prepared o).or (known o) = known o) (o : Oid) :
    (prepare answers oid (known oid) prepared o).or (known o) = known o := by
  unfold prepare
  by_cases ho : o = oid
  · subst ho
    rw [Function.update_self, h o]
    cases known o with
    | none => rfl
    | some rel =>
      rw [Option.filter_some]
      split
      · rfl
      · rfl
  · rw [Function.update_of_ne ho]
    exact h o

theorem next_follows (event : ChangeEvent) (p : Prepared) (h : Follows known p) :
    Follows known (next svc event (known event.rel) p) := by
  intro o
  have hupsert := prepare_follows svc.upserts event.rel p.upserts (fun o => (h o).1) o
  have hdelete := prepare_follows svc.deletes event.rel p.deletes (fun o => (h o).2) o
  unfold next
  split
  · exact h o
  · exact ⟨hupsert, (h o).2⟩
  · exact ⟨hupsert, (h o).2⟩
  · exact ⟨(h o).1, hdelete⟩

theorem effect_follows (event : ChangeEvent) (p : Prepared) (h : Follows known p) :
    effect svc event (known event.rel) p = eventEffect svc known event := by
  obtain ⟨hupsert, hdelete⟩ := h event.rel
  unfold eventEffect effect
  rw [hupsert, hdelete]
  rfl

theorem onEvent_ready (h : Serves tables svc known) (event : ChangeEvent) (k : Sink D)
    (hk : Ready svc known k) :
    Did (eventEffect svc known event) ((onEvent event k).2 = panicked) (tables k.client)
        (tables (onEvent event k).1.client) ∧
      Ready svc known (onEvent event k).1 := by
  obtain ⟨p, hholds, hfollows⟩ := hk
  obtain ⟨hdid, hnext⟩ := onEvent_planned h.hosts hholds event
  rw [effect_follows event p hfollows] at hdid
  exact ⟨hdid, _, hnext, next_follows event p hfollows⟩

theorem reached_ready (h : Serves tables svc known) (k : Sink D) (hk : Reached known k) :
    Ready svc known k := by
  induction hk with
  | new d =>
    exact ⟨⟨fun _ => none, fun _ => none⟩, holds_new svc _ d known (fun _ _ hk => hk),
      fun _ => ⟨rfl, rfl⟩⟩
  | event event k _ ih => exact (onEvent_ready h event k ih).2

/-- The events do to the tables what can be carried out of their effects. -/
theorem applyAll_tables (h : Serves tables svc known) (events : List ChangeEvent) (k : Sink D)
    (hk : Ready svc known k) :
    tables (applyAll events k).1.client =
      applied (carriedOut (eventEffect svc known) events) (tables k.client) := by
  induction events generalizing k with
  | nil => rfl
  | cons event events ih =>
    obtain ⟨hdid, hready⟩ := onEvent_ready h event k hk
    unfold carriedOut
    cases heff : eventEffect svc known event with
    | none =>
      rw [heff] at hdid
      rw [applyAll_panicked event events k hdid.1]
      exact hdid.2
    | some f =>
      rw [heff] at hdid
      rw [applyAll_goes_on event events k hdid.1, ih _ hready, hdid.2]
      rfl

end Runs

/-- No key column is sent as null. -/
def keysPresent (rel : Relation) : Op → Bool
  | .insert row | .update _ row =>
    (extractKeysRel rel).all (fun c => row[(extractFieldsNames rel).idxOf c]? ≠ some .null)
  | .delete _ => true

def eventKeysPresent (known : Oid → Option Relation) (event : ChangeEvent) : Bool :=
  match known event.rel, mergeToasted event.op with
  | some rel, .ok op => keysPresent rel op
  | _, _ => true

theorem convert_get (ps : List (Outcome String Cell)) (values : List Cell)
    (h : convert ps = .ok values) (i : ℕ) : ps[i]? = values[i]?.map .ok := by
  induction ps generalizing values i with
  | nil =>
    cases h
    rfl
  | cons p ps ih =>
    simp only [convert, bind_ok_iff] at h
    obtain ⟨c, hc, cs, hcs, h⟩ := h
    cases h
    cases i with
    | zero => exact congrArg some hc
    | succ i => exact ih cs hcs i

theorem toSql_null (v : PgValue) (h : toSql v = .ok .null) : v = .null := by
  cases v with
  | null => rfl
  | timestamp t =>
    simp only [toSql] at h
    by_cases ht : representable t = true
    · rw [if_pos ht] at h
      cases h
    · rw [if_neg ht] at h
      cases h
  | _ => cases h

theorem key_present (rel : Relation) (row : List PgValue) (values : List Cell)
    (hkeys : keysPresent rel (.insert row) = true)
    (hlen : row.length = (extractFieldsNames rel).length)
    (hc : convert (row.map toSql) = .ok values) : Cell.null ∉ keyCells rel values := by
  intro hnull
  obtain ⟨c, hmem, hcell⟩ := List.mem_map.mp hnull
  have hi : (extractFieldsNames rel).idxOf c < row.length := by
    rw [hlen]
    exact List.idxOf_lt_length_of_mem (keys_subset rel hmem)
  have hget := convert_get _ values hc ((extractFieldsNames rel).idxOf c)
  rw [List.getElem?_map, List.getElem?_eq_getElem hi] at hget
  have hpresent := List.all_eq_true.mp hkeys c hmem
  rw [decide_eq_true_eq, List.getElem?_eq_getElem hi] at hpresent
  apply hpresent
  apply congrArg some
  apply toSql_null
  unfold cell at hcell
  cases hv : values[(extractFieldsNames rel).idxOf c]? with
  | none =>
    rw [hv] at hget
    cases hget
  | some v =>
    rw [hv] at hget hcell
    exact (Option.some.inj hget).trans (congrArg _ hcell)

section Law
variable {svc : Service} {known : Oid → Option Relation}

theorem statementEffect_keyed (rel : Relation) (command : Command) (params : List PgValue)
    (answer : Option (List Cell → Bool))
    (hrun : ∀ values, answer.isSome = true → params.length = command.arity →
      convert (params.map toSql) = .ok values →
      KeyedEffect (svc.columns rel) rel (command.run (svc.columns rel) values))
    (f : Tables → Tables)
    (hf : statementEffect (svc.columns rel) rel.name command params answer = some f) :
    ∃ g, KeyedEffect (svc.columns rel) rel g ∧ f = onTable rel.name g := by
  have hnothing : some id = some f → ∃ g, KeyedEffect (svc.columns rel) rel g ∧
      f = onTable rel.name g := by
    intro he
    exact ⟨id, .nothing, by rw [onTable_id, Option.some.inj he]⟩
  unfold statementEffect at hf
  split at hf
  · exact hnothing hf
  · split at hf
    · exact hnothing hf
    · next harity =>
      split at hf
      · next values hc =>
        split at hf
        · exact ⟨_, hrun values rfl (not_not.mp harity) hc, (Option.some.inj hf).symm⟩
        · exact hnothing hf
      · exact hnothing hf
      · cases hf

theorem upsertCommand_keyed (columns : List String) (rel : Relation)
    (hcovers : extractFieldsNames rel ⊆ columns) (row : List PgValue)
    (hkeys : keysPresent rel (.insert row) = true) (values : List Cell)
    (hlen : row.length = (extractFieldsNames rel).length)
    (hc : convert (row.map toSql) = .ok values) :
    KeyedEffect columns rel ((upsertCommand rel).run columns values) := by
  have hpresent := key_present rel row values hkeys hlen hc
  rw [← newOf_key columns rel hcovers] at hpresent
  have hvalues : values.length = (extractFieldsNames rel).length := by
    rw [convert_length _ _ hc, List.length_map, hlen]
  have hput : (upsertCommand rel).run columns values = put (keyOf columns (extractKeysRel rel))
      (newOf columns rel values) (changedOf columns rel values) := by
    funext t
    exact executeUpsert_put columns _ _ _ values hpresent t
  rw [hput]
  exact .puts values hvalues hcovers

theorem deleteCommand_keyed (columns : List String) (rel : Relation) (values : List Cell) :
    KeyedEffect columns rel ((deleteCommand rel).run columns values) := by
  by_cases hnull : Cell.null ∈ values
  · have hid : (deleteCommand rel).run columns values = id := by
      funext t
      exact executeDelete_null columns _ values hnull t
    rw [hid]
    exact .nothing
  · have hwithout : (deleteCommand rel).run columns values =
        without (keyOf columns (extractKeysRel rel)) values := by
      funext t
      exact executeDelete_without columns _ values hnull t
    rw [hwithout]
    exact .removes values

theorem eventEffect_keyed {D : Type} [PostgresClient D] {tables : D → Tables}
    (h : Serves tables svc known) (event : ChangeEvent)
    (hkeys : eventKeysPresent known event = true) (f : Tables → Tables)
    (hf : eventEffect svc known event = some f) :
    f = id ∨ ∃ oid rel g, known oid = some rel ∧ KeyedEffect (svc.columns rel) rel g ∧
      f = onTable rel.name g := by
  unfold eventEffect effect at hf
  unfold eventKeysPresent at hkeys
  cases hknown : known event.rel with
  | none =>
    have hnothing : some id = some f := by
      rw [hknown] at hf
      split at hf <;> exact hf
    exact Or.inl (Option.some.inj hnothing).symm
  | some rel =>
    rw [hknown] at hf hkeys
    cases hm : mergeToasted event.op with
    | error e =>
      rw [hm] at hf
      exact Or.inl (Option.some.inj hf).symm
    | ok op =>
      rw [hm] at hf hkeys
      refine Or.inr ⟨event.rel, rel, ?_⟩
      have hwrite : ∀ row, keysPresent rel (.insert row) = true →
          upsertEffect svc row (some rel) = some f →
            ∃ g, KeyedEffect (svc.columns rel) rel g ∧ f = onTable rel.name g := by
        intro row hrow heff
        exact statementEffect_keyed rel _ row _ (fun values hsome hlen hc =>
          upsertCommand_keyed _ rel (h.covers _ rel hknown hsome) row hrow values hlen hc) f heff
      obtain ⟨g, hg⟩ : ∃ g, KeyedEffect (svc.columns rel) rel g ∧ f = onTable rel.name g := by
        cases op with
        | insert row => exact hwrite row hkeys hf
        | update old row => exact hwrite row hkeys hf
        | delete old =>
          exact statementEffect_keyed rel _ (boundOld rel old) _ (fun values _ _ _ =>
            deleteCommand_keyed _ rel values) f hf
      exact ⟨g, hknown, hg⟩

theorem events_last_wins {D : Type} [PostgresClient D] {tables : D → Tables}
    (h : Serves tables svc known) (events : List ChangeEvent)
    (hkeys : ∀ event ∈ events, eventKeysPresent known event = true) :
    LastWins (carriedOut (eventEffect svc known) events) := by
  have hkeyed : ∀ f ∈ carriedOut (eventEffect svc known) events, f = id ∨ ∃ oid rel g,
      known oid = some rel ∧ KeyedEffect (svc.columns rel) rel g ∧ f = onTable rel.name g := by
    intro f hf
    obtain ⟨event, hmem, heff⟩ := carriedOut_mem _ events f hf
    exact eventEffect_keyed h event (hkeys event hmem) f heff
  have hagain : ∀ f ∈ carriedOut (eventEffect svc known) events, ∀ s, f (f s) = f s := by
    intro f hf s
    rcases hkeyed f hf with rfl | ⟨oid, rel, g, hknown, hg, rfl⟩
    · rfl
    · rw [onTable_twice]
      exact congrArg (fun g => onTable rel.name g s)
        (funext (keyedEffect_again _ rel g hg))
  refine ⟨hagain, fun f hf f' hf' s => ?_⟩
  rcases hkeyed f hf with rfl | ⟨oid, rel, g, hknown, hg, rfl⟩
  · rfl
  · rcases hkeyed f' hf' with rfl | ⟨oid', rel', g', hknown', hg', rfl⟩
    · exact hagain _ hf s
    · by_cases hname : rel.name = rel'.name
      · have hoid := h.hosts.own_table oid oid' rel rel' hknown hknown' hname
        subst hoid
        rw [hknown, Option.some.injEq] at hknown'
        subst hknown'
        rw [onTable_twice, onTable_twice, onTable_twice]
        exact congrArg (fun g => onTable rel.name g s)
          (funext (keyedEffect_between _ rel g g' hg hg'))
      · rw [onTable_comm _ _ (Ne.symm hname), hagain _ hf]

/-- Events that were applied may be applied again, all of them or the last
ones, by the same process or by one that starts over the same tables. -/
theorem replay_changes_nothing {D : Type} [PostgresClient D] {tables : D → Tables}
    (h : Serves tables svc known) (events : List ChangeEvent)
    (hkeys : ∀ event ∈ events, eventKeysPresent known event = true) (k : Sink D)
    (hk : Reached known k) :
    tables (applyAll events (applyAll events k).1).1.client =
        tables (applyAll events k).1.client ∧
      ∀ before tail d, events = before ++ tail → (applyAll before k).2 = true →
        tables d = tables (applyAll events k).1.client →
          tables (applyAll tail (new d known)).1.client = tables d := by
  have hagain : ∀ events : List ChangeEvent,
      (∀ event ∈ events, eventKeysPresent known event = true) →
        ∀ k again : Sink D, Reached known k → Reached known again →
          tables again.client = tables (applyAll events k).1.client →
            tables (applyAll events again).1.client = tables again.client := by
    intro events hkeys k again hk hreached hsame
    have hfirst := applyAll_tables h events k (reached_ready h k hk)
    have hsecond := applyAll_tables h events again (reached_ready h again hreached)
    rw [hsecond, hsame, hfirst]
    exact earlier_redundant (events_last_wins h events hkeys) _ (fun f hf => hf) _
  constructor
  · exact hagain events hkeys k _ hk (applyAll_reached events k hk) rfl
  · intro before tail d heq hall hsame
    subst heq
    rw [applyAll_append before tail k hall] at hsame
    exact hagain tail (fun event hmem => hkeys event (List.mem_append_right _ hmem))
      (applyAll before k).1 (new d known) (applyAll_reached before k hk) (Reached.new d) hsame

end Law

def members : Relation :=
  ⟨2, "members", "public", [⟨true, "team", .int4⟩, ⟨true, "person", .int4⟩], .keys⟩

def twoTables (oid : Oid) : Option Relation :=
  if oid = 1 then some users else if oid = 2 then some members else none

abbrev TwoTables := Server [users, members]

theorem two_hosted (held : Oid → Relation → Prop)
    (h : ∀ oid rel, held oid rel →
      (oid = 1 ∧ rel = users) ∨ (oid = 2 ∧ rel = members)) :
    Hosts (Server.tables : TwoTables → Tables) Server.service held := by
  apply Server.hosts
  · intro oid oid' rel rel' hrel hrel' hname
    rcases h oid rel hrel with ⟨rfl, rfl⟩ | ⟨rfl, rfl⟩ <;>
      rcases h oid' rel' hrel' with ⟨rfl, rfl⟩ | ⟨rfl, rfl⟩
    · rfl
    · exact absurd hname (by decide)
    · exact absurd hname (by decide)
    · rfl
  · intro oid rel hrel
    rcases h oid rel hrel with ⟨_, rfl⟩ | ⟨_, rfl⟩
    · exact ⟨users, rfl, rfl, by decide +kernel, by decide +kernel⟩
    · exact ⟨members, rfl, rfl, by decide +kernel, by decide +kernel⟩

theorem twoTables_served :
    Serves (Server.tables : TwoTables → Tables) Server.service twoTables := by
  refine ⟨two_hosted _ ?_, fun _ _ _ _ _ hc => hc⟩
  intro oid rel h
  unfold twoTables at h
  split at h
  · next ho => exact Or.inl ⟨ho, (Option.some.inj h).symm⟩
  · split at h
    · next ho => exact Or.inr ⟨ho, (Option.some.inj h).symm⟩
    · cases h

def mixedEvents : List ChangeEvent :=
  [⟨.insert [.int4 1, .text "a"], 1⟩, ⟨.insert [.int4 7, .int4 1], 2⟩,
    ⟨.update [] [.int4 1, .text "b"], 1⟩, ⟨.update [] [.int4 1, .toasted], 1⟩,
    ⟨.delete [.int4 1], 1⟩, ⟨.insert [.int4 7, .int4 1], 2⟩,
    ⟨.insert [.int4 1, .text "c"], 1⟩]

def emptySink : Sink TwoTables := new ⟨fun _ => ∅⟩ twoTables

theorem mixed_events_replay :
    (applyAll mixedEvents emptySink).1.client.tables "users" = {[.int4 1, .text "c"]} ∧
      (applyAll mixedEvents (applyAll mixedEvents emptySink).1).1.client.tables =
        (applyAll mixedEvents emptySink).1.client.tables := by
  constructor
  · decide +kernel
  · exact (replay_changes_nothing twoTables_served mixedEvents (by decide) emptySink
      (Reached.new _)).1

end CDC.TableReplay
