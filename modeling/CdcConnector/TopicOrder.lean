import CdcConnector.EventAvro
import CdcConnector.FoundRelations
import CdcConnector.KafkaConsumer
import CdcConnector.TableReplay

/-!
# The order between topics

The broker keeps the order inside a topic, and any topic may be ahead of any
other. Events of different tables commute, so the final tables are the same in
all orders that show each event a relation with the same names, keys and
identity; an event that is read before its relation is dropped.
-/

set_option autoImplicit false

namespace CDC.TopicOrder
open CDC.Fallible CDC.Event CDC.SinkModel CDC.SinkStatements CDC.PostgresSink CDC.StatementCache
open CDC.SinkTable CDC.SourceTable
open CDC.PartialRun CDC.Replay CDC.Interleaving CDC.SinkTables CDC.SinkPlan CDC.FoundRelations
open CDC.KafkaConsumer (KafkaClient receive stripPrefix logged)

structure Record where
  topic : String
  payload : Option Bytes
  deriving DecidableEq

section Consumer
variable (client : KafkaClient)

/-- One turn of the loop over the messages of all topics; the commit concerns
the offsets only. -/
def consume {S : Type} [KafkaSink S] (r : Record) (sink : S) : Option S :=
  (receive client r.topic r.payload sink).map Prod.fst

def call (r : Record) : Option Call :=
  match r.payload with
  | none => none
  | some view =>
    match stripPrefix r.topic client.topic with
    | none => none
    | some rest =>
      if ".event".toList.isPrefixOf rest then (client.eventFromAvro view).map Call.event
      else if rest = ".relations".toList then (client.relationFromAvro view).map Call.relation
      else none

def calls (records : List Record) : List Call := records.filterMap (call client)

variable {D : Type} [PostgresClient D]

theorem logged_step (event : ChangeEvent) (s : Sink D) :
    (logged (onEvent event s)).map Prod.fst = step (.event event) s := by
  unfold step
  dsimp only
  cases h : onEvent event s with
  | mk s' answer =>
    cases answer with
    | ok u => rfl
    | error x => cases x <;> rfl

theorem consume_call (r : Record) (s : Sink D) :
    consume client r s = (call client r).elim (some s) (fun c => step c s) := by
  unfold consume receive call
  cases r.payload with
  | none => rfl
  | some view =>
    dsimp only
    cases stripPrefix r.topic client.topic with
    | none => rfl
    | some rest =>
      dsimp only
      split
      · cases client.eventFromAvro view with
        | none => rfl
        | some event => exact logged_step event s
      · split
        · cases client.relationFromAvro view with
          | none => rfl
          | some relation => rfl
        · rfl

theorem run_consume (records : List Record) (s : Sink D) :
    run (consume client) records s = run step (calls client records) s := by
  induction records generalizing s with
  | nil => rfl
  | cons r records ih =>
    rw [run, consume_call, calls, List.filterMap_cons]
    cases call client r with
    | none => exact ih s
    | some c =>
      apply Option.bind_congr
      intro m _
      exact ih m

end Consumer

section Order
variable (client : KafkaClient) (known : Oid → Option Relation)

/-- The relations a sink may come to know. -/
def MayCome (records : List Record) (oid : Oid) (rel : Relation) : Prop :=
  known oid = some rel ∨ (.relation rel ∈ calls client records ∧ rel.relationOid = oid)

def PerTable (records : List Record) : Prop :=
  ∀ r ∈ records, ∀ r' ∈ records, ∀ event event', call client r = some (.event event) →
    call client r' = some (.event event') → event.rel = event'.rel → r.topic = r'.topic

abbrev foundIn (records : List Record) : List FoundEvent := found known (calls client records)

/-- What each event of an oid sees of the relation it finds. -/
def relationsFound (oid : Oid) (records : List Record) : List (Option Relation) :=
  (stream oidOf oid (foundIn client known records)).map (fun x => x.2.map seen)

def NoneDropped {D : Type} [PostgresClient D] (records : List Record) (s : Sink D) : Prop :=
  ∀ before r after m event, records = before ++ r::after →
    run (consume client) before s = some m → call client r = some (.event event) →
      ∀ oid, (onEvent event m).2 ≠ fail (.unknownRelation oid)

def eventOf : Call → Option ChangeEvent
  | .relation _ => none
  | .event event => some event

theorem found_events (calls : List Call) :
    (found known calls).map Prod.fst = calls.filterMap eventOf := by
  induction calls generalizing known with
  | nil => rfl
  | cons c calls ih =>
    cases c with
    | relation relation => exact ih _
    | event event => exact congrArg (List.cons event) (ih known)

theorem events_interleaved (records records' : List Record)
    (htopics : Interleaved Record.topic records records') (hper : PerTable client records)
    (oid : Oid) :
    (stream oidOf oid (foundIn client known records)).map Prod.fst =
      (stream oidOf oid (foundIn client known records')).map Prod.fst := by
  have hread : ∀ rs, (stream oidOf oid (foundIn client known rs)).map Prod.fst =
      rs.filterMap (fun r => ((call client r).bind eventOf).filter (fun e => e.rel = oid)) := by
    intro rs
    have hmap : (stream oidOf oid (foundIn client known rs)).map Prod.fst =
        stream ChangeEvent.rel oid ((foundIn client known rs).map Prod.fst) :=
      (stream_map ChangeEvent.rel Prod.fst oid _).symm
    rw [hmap, found_events, calls, List.filterMap_filterMap, stream, List.filter_filterMap]
  rw [hread, hread]
  apply interleaved_filterMap Record.topic _ _ _ htopics
  intro r hr r' hr' hsome hsome'
  have hevent : ∀ r, (((call client r).bind eventOf).filter (fun e => e.rel = oid)).isSome = true →
      ∃ event, call client r = some (.event event) ∧ event.rel = oid := by
    intro r h
    obtain ⟨event, hfilter⟩ := Option.isSome_iff_exists.mp h
    obtain ⟨hbind, hrel⟩ := Option.filter_eq_some_iff.mp hfilter
    obtain ⟨c, hc, hev⟩ := Option.bind_eq_some_iff.mp hbind
    cases c with
    | relation relation => cases hev
    | event e =>
      rw [eventOf, Option.some.injEq] at hev
      rw [hev] at hc
      exact ⟨event, hc, by simpa using hrel⟩
  obtain ⟨event, hc, hrel⟩ := hevent r hsome
  obtain ⟨event', hc', hrel'⟩ := hevent r' hsome'
  exact hper r hr r' hr' event event' hc hc' (hrel.trans hrel'.symm)

def seenIn (records : List Record) : List FoundEvent :=
  (foundIn client known records).map seenEvent

theorem seen_interleaved (records records' : List Record)
    (htopics : Interleaved Record.topic records records') (hper : PerTable client records)
    (hfound : ∀ oid, relationsFound client known oid records =
      relationsFound client known oid records') :
    Interleaved oidOf (seenIn client known records) (seenIn client known records') := by
  intro oid
  have hevents := events_interleaved client known records records' htopics hper oid
  have hzip : ∀ rs, stream oidOf oid (seenIn client known rs) =
      ((stream oidOf oid (foundIn client known rs)).map Prod.fst).zip
        (relationsFound client known oid rs) := by
    intro rs
    rw [seenIn, stream_map, relationsFound, List.zip_map']
    rfl
  rw [hzip, hzip, hevents, hfound oid]

theorem mem_calls (records : List Record) (c : Call) :
    c ∈ calls client records ↔ ∃ r ∈ records, call client r = some c := List.mem_filterMap

variable {client known} {D : Type} [PostgresClient D] {tables : D → Tables} {svc : Service}
  {rels : Oid → Relation → Prop}

theorem none_dropped (h : Hosts tables svc rels) (records : List Record) (d : D)
    (hknown : ∀ oid rel, known oid = some rel → rels oid rel)
    (hcome : ∀ rel, .relation rel ∈ calls client records → rels rel.relationOid rel)
    (hsome : ∀ x ∈ foundIn client known records, x.2.isSome = true)
    (hconv : ∀ x ∈ foundIn client known records, convertible x = true) :
    NoneDropped client records (new d known) := by
  intro before r after m event heq hrun hcall
  have hcalls : calls client records =
      calls client before ++ .event event :: calls client after := by
    rw [heq, calls, List.filterMap_append, List.filterMap_cons, hcall]
    rfl
  unfold foundIn at hsome hconv
  rw [hcalls, found_append] at hsome hconv
  obtain ⟨m', p, hrun', hholds, _⟩ := run_planned h (calls client before) (new d known) known _
    (holds_new svc rels d known hknown)
    (fun rel hmem => hcome rel (by rw [hcalls]; exact List.mem_append_left _ hmem))
    (fun x hx => hconv x (List.mem_append_left _ hx))
  rw [run_consume, hrun', Option.some.injEq] at hrun
  subst hrun
  obtain ⟨rel, hrel⟩ := Option.isSome_iff_exists.mp
    (hsome (event, (calls client before).foldl latest known event.rel) (by simp [found]))
  exact onEvent_known h hholds event rel hrel

/-- In any two interleavings of the topics in which the events of every oid
find a relation each with the same names, keys and identity, and bind no value
that panics: the tables are the same at the end, and no event is dropped. -/
theorem order_does_not_matter (records records' : List Record)
    (h : Hosts tables svc (MayCome client known records))
    (htopics : Interleaved Record.topic records records') (hper : PerTable client records)
    (hfound : ∀ oid, relationsFound client known oid records =
      relationsFound client known oid records')
    (hsome : ∀ x ∈ foundIn client known records, x.2.isSome = true)
    (hconv : ∀ x ∈ foundIn client known records, convertible x = true) (d : D) :
    ∃ s s', run (consume client) records (new d known) = some s ∧
      run (consume client) records' (new d known) = some s' ∧
      tables s.client = tables s'.client ∧
      NoneDropped client records (new d known) ∧ NoneDropped client records' (new d known) := by
  have hknown : ∀ oid rel, known oid = some rel → MayCome client known records oid rel :=
    fun oid rel hk => Or.inl hk
  have hcome : ∀ rel, .relation rel ∈ calls client records →
      MayCome client known records rel.relationOid rel := fun rel hmem => Or.inr ⟨hmem, rfl⟩
  have hcome' : ∀ rel, .relation rel ∈ calls client records' →
      MayCome client known records rel.relationOid rel := by
    intro rel hmem
    obtain ⟨r, hr, hcall⟩ := (mem_calls client records' _).mp hmem
    have hr := mem_of_interleaved Record.topic (interleaved_symm Record.topic htopics) r hr
    exact hcome rel ((mem_calls client records _).mpr ⟨r, hr, hcall⟩)
  have hinter := seen_interleaved client known records records' htopics hper hfound
  have hback : ∀ x ∈ foundIn client known records', x.2.isSome = true ∧ convertible x = true := by
    intro x hx
    obtain ⟨y, hy, hsame⟩ := List.mem_map.mp (mem_of_interleaved oidOf
      (interleaved_symm oidOf hinter) (seenEvent x) (List.mem_map_of_mem hx))
    have hfind : y.2.map seen = x.2.map seen := congrArg Prod.snd hsame
    constructor
    · rw [← Option.isSome_map, ← hfind, Option.isSome_map]
      exact hsome y hy
    · rw [← seen_convertible, ← hsame, seen_convertible]
      exact hconv y hy
  obtain ⟨svc', h'⟩ := hosts_seen h
  obtain ⟨s, hrun, htables⟩ := run_seen h' (calls client records) known d hknown hcome hconv
  obtain ⟨s', hrun', htables'⟩ := run_seen h' (calls client records') known d hknown hcome'
    (fun x hx => (hback x hx).2)
  refine ⟨s, s', ?_, ?_, ?_, none_dropped h records d hknown hcome hsome hconv,
    none_dropped h records' d hknown hcome' (fun x hx => (hback x hx).1)
      (fun x hx => (hback x hx).2)⟩
  · rw [run_consume, hrun]
  · rw [run_consume, hrun']
  · rw [htables, htables']
    apply applied_interleaved Prod.fst Prod.snd
    · apply planned_comm h'.own_table
      · exact fun _ _ hp => by cases hp
      · exact fun _ _ hp => by cases hp
      · intro x hx rel hrel
        obtain ⟨y, hy, rfl⟩ := List.mem_map.mp hx
        obtain ⟨r, hr, hsame⟩ := Option.map_eq_some_iff.mp hrel
        exact ⟨r, found_received known (calls client records) y hy r hr, hsame⟩
    · exact planned_interleaved _ _ _ hinter

end Order

def usersBytes : Bytes :=
  [2, 12, 112, 117, 98, 108, 105, 99, 10, 117, 115, 101, 114, 115, 4, 1, 4, 105, 100, 0, 0, 8, 110,
    97, 109, 101, 2, 0, 0]

def membersBytes : Bytes :=
  [4, 12, 112, 117, 98, 108, 105, 99, 14, 109, 101, 109, 98, 101, 114, 115, 4, 1, 8, 116, 101, 97,
    109, 0, 1, 12, 112, 101, 114, 115, 111, 110, 0, 0, 0]

def longUsers : Relation :=
  ⟨1, "users", "public", [⟨true, "id", .int8⟩, ⟨false, "name", .text⟩], .keys⟩

def longUsersBytes : Bytes :=
  [2, 12, 112, 117, 98, 108, 105, 99, 10, 117, 115, 101, 114, 115, 4, 1, 4, 105, 100, 4, 0, 8, 110,
    97, 109, 101, 2, 0, 0]

def wireClient : KafkaClient where
  topic := "cdc"
  eventFromAvro view := (EventAvro.fromAvro SerdeAvro.codec view).toOption
  relationFromAvro view :=
    if view = usersBytes then some users
    else if view = membersBytes then some TableReplay.members
    else if view = longUsersBytes then some longUsers
    else none

def usersRelation : Record := ⟨"cdc.relations", some usersBytes⟩

def membersRelation : Record := ⟨"cdc.relations", some membersBytes⟩

def longUsersRelation : Record := ⟨"cdc.relations", some longUsersBytes⟩

def userEvent : Record := ⟨"cdc.events.public.users", some [0, 4, 2, 2, 0, 2, 97, 0, 2]⟩

def memberEvent : Record := ⟨"cdc.events.public.members", some [0, 4, 2, 14, 2, 2, 0, 4]⟩

def eventTopic (oid : Oid) : String :=
  if oid = 1 then "cdc.events.public.users" else "cdc.events.public.members"

theorem wire_perTable (records : List Record)
    (h : ∀ r ∈ records, r = usersRelation ∨ r = membersRelation ∨ r = longUsersRelation ∨
      r = userEvent ∨ r = memberEvent) :
    PerTable wireClient records := by
  have htopic : ∀ r ∈ records, ∀ event, call wireClient r = some (.event event) →
      r.topic = eventTopic event.rel := by
    intro r hr event hcall
    rcases h r hr with rfl | rfl | rfl | rfl | rfl
    · have hrel : call wireClient usersRelation = some (.relation users) := rfl
      rw [hrel] at hcall
      cases hcall
    · have hrel : call wireClient membersRelation = some (.relation TableReplay.members) := rfl
      rw [hrel] at hcall
      cases hcall
    · have hrel : call wireClient longUsersRelation = some (.relation longUsers) := rfl
      rw [hrel] at hcall
      cases hcall
    · have hev : call wireClient userEvent =
          some (.event ⟨.insert [.int4 1, .text "a"], 1⟩) := rfl
      rw [hev] at hcall
      cases hcall
      rfl
    · have hev : call wireClient memberEvent =
          some (.event ⟨.insert [.int4 7, .int4 1], 2⟩) := rfl
      rw [hev] at hcall
      cases hcall
      rfl
  intro r hr r' hr' event event' hcall hcall' hrel
  rw [htopic r hr event hcall, htopic r' hr' event' hcall', hrel]

def usersAfter (known : Oid → Option Relation) (records : List Record) :
    Option (Finset SinkDatabase.TableRow) :=
  (run (consume wireClient) records (new (⟨fun _ => ∅⟩ : TableReplay.TwoTables) known)).map
    (fun s => s.client.tables "users")

/-- A table that appears while the sink runs: its event may be read first. -/
theorem early_event_is_dropped :
    Hosts (Server.tables : TableReplay.TwoTables → Tables) Server.service
        (MayCome wireClient (fun _ => none) [usersRelation, userEvent]) ∧
      Interleaved Record.topic [usersRelation, userEvent] [userEvent, usersRelation] ∧
      PerTable wireClient [usersRelation, userEvent] ∧
      usersAfter (fun _ => none) [usersRelation, userEvent] = some {[.int4 1, .text "a"]} ∧
      usersAfter (fun _ => none) [userEvent, usersRelation] = some ∅ := by
  have hcalls : calls wireClient [usersRelation, userEvent] =
      [.relation users, .event ⟨.insert [.int4 1, .text "a"], 1⟩] := rfl
  refine ⟨TableReplay.two_hosted _ ?_, ?_, ?_, ?_, ?_⟩
  · rintro oid rel (h | ⟨h, hoid⟩)
    · cases h
    · rw [hcalls] at h
      simp only [List.mem_cons, Call.relation.injEq, reduceCtorEq, List.not_mem_nil, or_false] at h
      subst h
      exact Or.inl ⟨hoid.symm, rfl⟩
  · exact interleaved_swap Record.topic usersRelation userEvent [] (by decide)
  · exact wire_perTable _ (by decide)
  · decide +kernel
  · decide +kernel

def usersOnly (oid : Oid) : Option Relation := if oid = 1 then some users else none

/-- With the users loaded before, and the members announced before their
event, the order between the topics is free, also where the users' numbers
become longer on the way. -/
theorem loaded_relation_commutes :
    ∃ s s' : Sink TableReplay.TwoTables,
      run (consume wireClient) [userEvent, longUsersRelation, membersRelation, memberEvent]
        (new ⟨fun _ => ∅⟩ usersOnly) = some s ∧
      run (consume wireClient) [longUsersRelation, userEvent, membersRelation, memberEvent]
        (new ⟨fun _ => ∅⟩ usersOnly) = some s' ∧
      s.client.tables = s'.client.tables := by
  have hcalls : calls wireClient [userEvent, longUsersRelation, membersRelation, memberEvent] =
      [.event ⟨.insert [.int4 1, .text "a"], 1⟩, .relation longUsers, .relation TableReplay.members,
        .event ⟨.insert [.int4 7, .int4 1], 2⟩] := rfl
  have hcome : ∀ oid rel,
      MayCome wireClient usersOnly [userEvent, longUsersRelation, membersRelation, memberEvent] oid
        rel → (oid = 1 ∧ (rel = users ∨ rel = longUsers)) ∨ (oid = 2 ∧ rel = TableReplay.members) := by
    rintro oid rel (h | ⟨h, hoid⟩)
    · unfold usersOnly at h
      split at h
      · next ho => exact Or.inl ⟨ho, Or.inl (Option.some.inj h).symm⟩
      · cases h
    · rw [hcalls] at h
      simp only [List.mem_cons, Call.relation.injEq, reduceCtorEq, List.not_mem_nil, or_false,
        false_or] at h
      rcases h with rfl | rfl
      · exact Or.inl ⟨hoid.symm, Or.inr rfl⟩
      · exact Or.inr ⟨hoid.symm, rfl⟩
  have hhosts : Hosts (Server.tables : TableReplay.TwoTables → Tables) Server.service
      (MayCome wireClient usersOnly
        [userEvent, longUsersRelation, membersRelation, memberEvent]) := by
    apply Server.hosts
    · intro oid oid' rel rel' hrel hrel' hname
      rcases hcome oid rel hrel with ⟨rfl, rfl | rfl⟩ | ⟨rfl, rfl⟩ <;>
        rcases hcome oid' rel' hrel' with ⟨rfl, rfl | rfl⟩ | ⟨rfl, rfl⟩ <;>
          first | rfl | exact absurd hname (by decide)
    · intro oid rel hrel
      rcases hcome oid rel hrel with ⟨_, rfl | rfl⟩ | ⟨_, rfl⟩
      · exact ⟨users, rfl, rfl, by decide +kernel, by decide +kernel⟩
      · exact ⟨users, rfl, rfl, by decide +kernel, by decide +kernel⟩
      · exact ⟨TableReplay.members, rfl, rfl, by decide +kernel, by decide +kernel⟩
  have hsame : seenIn wireClient usersOnly
        [userEvent, longUsersRelation, membersRelation, memberEvent] =
      seenIn wireClient usersOnly
        [longUsersRelation, userEvent, membersRelation, memberEvent] := by
    decide +kernel
  have hfound : ∀ oid rs, relationsFound wireClient usersOnly oid rs =
      (stream oidOf oid (seenIn wireClient usersOnly rs)).map Prod.snd := by
    intro oid rs
    rw [seenIn, stream_map, List.map_map]
    rfl
  obtain ⟨s, s', hrun, hrun', htables, _⟩ := order_does_not_matter
    [userEvent, longUsersRelation, membersRelation, memberEvent]
    [longUsersRelation, userEvent, membersRelation, memberEvent] hhosts
    (interleaved_swap Record.topic userEvent longUsersRelation [membersRelation, memberEvent]
      (by decide))
    (wire_perTable _ (by decide)) (fun oid => by rw [hfound, hfound, hsame])
    (by decide +kernel) (by decide +kernel) ⟨fun _ => ∅⟩
  exact ⟨s, s', hrun, hrun', htables⟩

end CDC.TopicOrder
