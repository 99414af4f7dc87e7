import CdcConnector.Interleaving
import CdcConnector.SinkPlan

/-!
# Events and the relations they find

Of the relations received, an event sees only the latest of its oid, and of that
one names, keys and identity. With the relations the events found, the sink's
calls are operations on the tables, one an event, and those of an oid do not
depend on the events of other oids.
-/

set_option autoImplicit false

namespace CDC.FoundRelations
open CDC.Fallible CDC.Event CDC.SinkModel CDC.SinkStatements CDC.PostgresSink CDC.SinkDatabase
open CDC.SinkTable CDC.StatementCache CDC.PartialRun CDC.Replay CDC.Interleaving CDC.SinkTables
open CDC.SinkPlan

abbrev FoundEvent := ChangeEvent × Option Relation

def oidOf (x : FoundEvent) : Oid := x.1.rel

/-- The events, each with the latest relation of its oid. -/
def found (known : Oid → Option Relation) : List Call → List FoundEvent
  | [] => []
  | .relation relation::calls => found (latest known (.relation relation)) calls
  | .event event::calls => (event, known event.rel) :: found known calls

theorem found_append (known : Oid → Option Relation) (calls calls' : List Call) :
    found known (calls ++ calls') =
      found known calls ++ found (calls.foldl latest known) calls' := by
  induction calls generalizing known with
  | nil => rfl
  | cons call calls ih =>
    cases call with
    | relation relation => exact ih _
    | event event => exact congrArg (List.cons _) (ih known)

theorem found_received (known : Oid → Option Relation) (calls : List Call) :
    ∀ x ∈ found known calls, ∀ rel, x.2 = some rel →
      known (oidOf x) = some rel ∨ (.relation rel ∈ calls ∧ rel.relationOid = oidOf x) := by
  induction calls generalizing known with
  | nil =>
    intro x hx
    cases hx
  | cons call calls ih =>
    intro x hx rel hrel
    cases call with
    | relation relation =>
      rcases ih _ x hx rel hrel with hk | ⟨hmem, hoid⟩
      · by_cases ho : oidOf x = relation.relationOid
        · simp only [latest, ho, Function.update_self, Option.some.injEq] at hk
          subst hk
          exact Or.inr ⟨by simp, ho.symm⟩
        · simp only [latest, Function.update_of_ne ho] at hk
          exact Or.inl hk
      · exact Or.inr ⟨List.mem_cons_of_mem _ hmem, hoid⟩
    | event event =>
      rcases List.mem_cons.mp hx with rfl | hx
      · exact Or.inl hrel
      · rcases ih known x hx rel hrel with hk | ⟨hmem, hoid⟩
        · exact Or.inl hk
        · exact Or.inr ⟨List.mem_cons_of_mem _ hmem, hoid⟩

def bindable : PgValue → Bool
  | .timestamp t => representable t
  | _ => true

/-- No value an event binds panics. -/
def convertible (x : FoundEvent) : Bool :=
  match mergeToasted x.1.op with
  | .error _ => true
  | .ok (.insert row) | .ok (.update _ row) => row.all bindable
  | .ok (.delete old) => (x.2.map (fun rel => boundOld rel old)).all (fun old => old.all bindable)

section Seen

/-- What the sink reads of a relation: neither types nor the schema. -/
def seen (rel : Relation) : Relation :=
  { rel with relNamespace := "", fields := rel.fields.map (fun f => { f with kind := .text }) }

def seenCall : Call → Call
  | .relation relation => .relation (seen relation)
  | .event event => .event event

abbrev seenKnown (known : Oid → Option Relation) (oid : Oid) : Option Relation :=
  (known oid).map seen

def seenEvent (x : FoundEvent) : FoundEvent := (x.1, x.2.map seen)

theorem seen_names (rel : Relation) : extractFieldsNames (seen rel) = extractFieldsNames rel := by
  unfold extractFieldsNames seen
  rw [List.map_map]
  rfl

theorem seen_keys (rel : Relation) : extractKeysRel (seen rel) = extractKeysRel rel := by
  unfold extractKeysRel seen
  rw [List.filterMap_map]
  rfl

theorem seen_positions (rel : Relation) :
    extractKeysPos (seen rel).fields = extractKeysPos rel.fields := by
  unfold extractKeysPos seen
  rw [List.zipIdx_map, List.filterMap_map]
  rfl

theorem seen_identity (rel : Relation) : extractKeyIdentity (seen rel) = extractKeyIdentity rel := by
  unfold extractKeyIdentity
  rw [seen_positions]
  rfl

theorem seen_upsert (rel : Relation) :
    upsertText (seen rel) = upsertText rel ∧ upsertCommand (seen rel) = upsertCommand rel := by
  unfold upsertText upsertCommand
  rw [seen_names, seen_keys]
  exact ⟨rfl, rfl⟩

theorem seen_delete (rel : Relation) :
    deleteText (seen rel) = deleteText rel ∧ deleteCommand (seen rel) = deleteCommand rel := by
  unfold deleteText deleteCommand
  rw [seen_keys]
  exact ⟨rfl, rfl⟩

theorem seen_bound (rel : Relation) (old : List PgValue) :
    boundOld (seen rel) old = boundOld rel old := by
  unfold boundOld keptValues
  rw [seen_positions]
  rfl

theorem seen_convertible (x : FoundEvent) : convertible (seenEvent x) = convertible x := by
  obtain ⟨event, known⟩ := x
  unfold convertible seenEvent
  cases known with
  | none => rfl
  | some rel =>
    simp only [Option.map_some, seen_bound]

variable {D : Type}

theorem new_seen (d : D) (known : Oid → Option Relation) : new d (seenKnown known) = new d known := by
  have hcache : RelationCache.fromRels (seenKnown known) = RelationCache.fromRels known := by
    unfold RelationCache.fromRels
    simp only [seenKnown, Option.map_map, Function.comp_def, seen_names, seen_keys, seen_identity]
    rfl
  unfold new
  rw [hcache]

theorem step_seen [PostgresClient D] (call : Call) (s : Sink D) :
    step (seenCall call) s = step call s := by
  cases call with
  | event event => rfl
  | relation relation =>
    have hcache : s.relationCache.update (seen relation) = s.relationCache.update relation := by
      unfold RelationCache.update
      rw [seen_names, seen_keys, seen_identity]
      rfl
    show some (onRelation (seen relation) s).1 = some (onRelation relation s).1
    unfold onRelation
    rw [hcache]

theorem latest_seen (known : Oid → Option Relation) (call : Call) :
    latest (seenKnown known) (seenCall call) = seenKnown (latest known call) := by
  cases call with
  | event event => rfl
  | relation relation =>
    exact (Function.comp_update (Option.map seen) known relation.relationOid (some relation)).symm

theorem found_seen (known : Oid → Option Relation) (calls : List Call) :
    found (seenKnown known) (calls.map seenCall) =
      (found known calls).map seenEvent := by
  induction calls generalizing known with
  | nil => rfl
  | cons call calls ih =>
    have hlatest := latest_seen known call
    cases call with
    | relation relation =>
      show found (latest (seenKnown known) (seenCall (.relation relation))) _ = _
      rw [hlatest]
      exact ih _
    | event event => exact congrArg (List.cons _) (ih known)

/-- A server that answers the statements of the relations answers those of
what is seen of them. -/
theorem hosts_seen [PostgresClient D] {tables : D → Tables} {svc : Service}
    {rels : Oid → Relation → Prop} (h : Hosts tables svc rels) :
    ∃ svc, Hosts tables svc (fun oid rel => ∃ r, rels oid r ∧ seen r = rel) := by
  classical
  have hlike : ∀ rel, ∃ like, ∀ oid r, rels oid r → seen r = rel →
      ∃ o, rels o like ∧ seen like = rel := by
    intro rel
    by_cases hr : ∃ oid r, rels oid r ∧ seen r = rel
    · obtain ⟨oid, r, hrels, hseen⟩ := hr
      exact ⟨r, fun _ _ _ _ => ⟨oid, hrels, hseen⟩⟩
    · exact ⟨rel, fun oid r hrels hseen => absurd ⟨oid, r, hrels, hseen⟩ hr⟩
  choose like hlike using hlike
  refine ⟨⟨fun rel => svc.columns (like rel), fun rel => svc.upserts (like rel),
    fun rel => svc.deletes (like rel)⟩, ?_, ?_, ?_⟩
  · rintro oid oid' _ _ ⟨r, hr, rfl⟩ ⟨r', hr', rfl⟩ hname
    exact h.own_table oid oid' r r' hr hr' hname
  · rintro oid rel ⟨r, hr, hseen⟩
    obtain ⟨o, ho, hsame⟩ := hlike rel oid r hr hseen
    have htext := h.upserts o (like rel) ho
    rw [← (seen_upsert _).1, ← (seen_upsert _).2, hsame] at htext
    have hname : (seen (like rel)).name = rel.name := by rw [hsame]
    rw [← hname]
    exact htext
  · rintro oid rel ⟨r, hr, hseen⟩
    obtain ⟨o, ho, hsame⟩ := hlike rel oid r hr hseen
    have htext := h.deletes o (like rel) ho
    rw [← (seen_delete _).1, ← (seen_delete _).2, hsame] at htext
    have hname : (seen (like rel)).name = rel.name := by rw [hsame]
    rw [← hname]
    exact htext

end Seen

section Plan
variable (svc : Service)

def planned : List FoundEvent → Prepared → List (Oid × (Tables → Tables))
  | [], _ => []
  | x::xs, p => (oidOf x, (effect svc x.1 x.2 p).getD id) :: planned xs (next svc x.1 x.2 p)

def Agree (oid : Oid) (p q : Prepared) : Prop :=
  p.upserts oid = q.upserts oid ∧ p.deletes oid = q.deletes oid

variable {svc}

theorem effect_agree (x : FoundEvent) (p q : Prepared) (h : Agree (oidOf x) p q) :
    effect svc x.1 x.2 p = effect svc x.1 x.2 q := by
  obtain ⟨hupsert, hdelete⟩ := h
  unfold oidOf at hupsert hdelete
  unfold effect
  rw [hupsert, hdelete]

theorem prepare_agree (answers : Relation → Option (List Cell → Bool)) (oid : Oid)
    (known : Option Relation) (prepared prepared' : Oid → Option Relation)
    (h : prepared oid = prepared' oid) :
    prepare answers oid known prepared oid = prepare answers oid known prepared' oid := by
  unfold prepare
  rw [Function.update_self, Function.update_self, h]

theorem next_agree (x : FoundEvent) (p q : Prepared) (h : Agree (oidOf x) p q) :
    Agree (oidOf x) (next svc x.1 x.2 p) (next svc x.1 x.2 q) := by
  have hupsert := prepare_agree svc.upserts (oidOf x) x.2 p.upserts q.upserts h.1
  have hdelete := prepare_agree svc.deletes (oidOf x) x.2 p.deletes q.deletes h.2
  unfold next
  split
  · exact h
  · exact ⟨hupsert, h.2⟩
  · exact ⟨hupsert, h.2⟩
  · exact ⟨h.1, hdelete⟩

theorem prepare_other (answers : Relation → Option (List Cell → Bool)) (oid o : Oid)
    (known : Option Relation) (prepared : Oid → Option Relation) (ho : o ≠ oid) :
    prepare answers oid known prepared o = prepared o := Function.update_of_ne ho _ _

theorem next_other (x : FoundEvent) (p : Prepared) (oid : Oid) (ho : oid ≠ oidOf x) :
    Agree oid (next svc x.1 x.2 p) p := by
  have hupsert := prepare_other svc.upserts (oidOf x) oid x.2 p.upserts ho
  have hdelete := prepare_other svc.deletes (oidOf x) oid x.2 p.deletes ho
  unfold next
  split
  · exact ⟨rfl, rfl⟩
  · exact ⟨hupsert, rfl⟩
  · exact ⟨hupsert, rfl⟩
  · exact ⟨rfl, hdelete⟩

theorem planned_agree (oid : Oid) (xs : List FoundEvent) (hxs : ∀ x ∈ xs, oidOf x = oid)
    (p q : Prepared) (h : Agree oid p q) : planned svc xs p = planned svc xs q := by
  induction xs generalizing p q with
  | nil => rfl
  | cons x xs ih =>
    have hx := hxs x (by simp)
    rw [← hx] at h
    have hnext : Agree (oidOf x) (next svc x.1 x.2 p) (next svc x.1 x.2 q) := next_agree x p q h
    rw [hx] at hnext
    rw [planned, planned, effect_agree x p q h,
      ih (fun y hy => hxs y (List.mem_cons_of_mem x hy)) _ _ hnext]

theorem planned_stream (oid : Oid) (xs : List FoundEvent) (p : Prepared) :
    stream Prod.fst oid (planned svc xs p) = planned svc (stream oidOf oid xs) p := by
  induction xs generalizing p with
  | nil => rfl
  | cons x xs ih =>
    by_cases hx : oidOf x = oid
    · subst hx
      rw [stream_cons_self, planned, planned, stream_cons_self Prod.fst
        (oidOf x, (effect svc x.1 x.2 p).getD id), ih]
    · rw [stream_cons_other oidOf oid x xs hx, planned, stream_cons_other Prod.fst oid _ _ hx, ih]
      apply planned_agree oid
      · exact fun y hy => by simpa [stream] using (List.mem_filter.mp hy).2
      · exact next_other x p oid (fun he => hx he.symm)

theorem planned_interleaved (xs ys : List FoundEvent) (p : Prepared)
    (h : Interleaved oidOf xs ys) :
    Interleaved Prod.fst (planned svc xs p) (planned svc ys p) := by
  intro oid
  rw [planned_stream, planned_stream, h oid]

end Plan

section Tables
variable {svc : Service} {rels : Oid → Relation → Prop}

theorem statementEffect_table (columns : List String) (name : String) (command : Command)
    (params : List PgValue) (answer : Option (List Cell → Bool)) :
    ∃ g, (statementEffect columns name command params answer).getD id = onTable name g := by
  have hnothing : ∃ g, (id : Tables → Tables) = onTable name g := ⟨id, (onTable_id name).symm⟩
  unfold statementEffect
  split
  · exact hnothing
  · split
    · exact hnothing
    · split
      · split
        · exact ⟨_, rfl⟩
        · exact hnothing
      · exact hnothing
      · exact hnothing

theorem effect_table (x : FoundEvent) (p : Prepared) (hu : Allowed rels svc.upserts p.upserts)
    (hd : Allowed rels svc.deletes p.deletes) (hx : ∀ rel, x.2 = some rel → rels (oidOf x) rel) :
    (effect svc x.1 x.2 p).getD id = id ∨
      ∃ rel g, rels (oidOf x) rel ∧ (effect svc x.1 x.2 p).getD id = onTable rel.name g := by
  have hwrite : ∀ row, (upsertEffect svc row ((p.upserts (oidOf x)).or x.2)).getD id = id ∨
      ∃ rel g, rels (oidOf x) rel ∧
        (upsertEffect svc row ((p.upserts (oidOf x)).or x.2)).getD id = onTable rel.name g := by
    intro row
    cases hrel : (p.upserts (oidOf x)).or x.2 with
    | none => exact Or.inl rfl
    | some rel =>
      obtain ⟨g, hg⟩ := statementEffect_table (svc.columns rel) rel.name (upsertCommand rel) row
        (svc.upserts rel)
      exact Or.inr ⟨rel, g, used_may_come hu _ _ hx rel hrel, hg⟩
  unfold effect
  split
  · exact Or.inl rfl
  · exact hwrite _
  · exact hwrite _
  · next old _ =>
    cases hrel : (p.deletes (oidOf x)).or x.2 with
    | none => exact Or.inl (by rw [← oidOf, hrel]; rfl)
    | some rel =>
      rw [← oidOf, hrel]
      cases hk : x.2 with
      | none => exact Or.inl rfl
      | some known =>
        obtain ⟨g, hg⟩ := statementEffect_table (svc.columns rel) rel.name (deleteCommand rel)
          (boundOld known old) (svc.deletes rel)
        exact Or.inr ⟨rel, g, used_may_come hd _ _ hx rel hrel, hg⟩

theorem next_allowed (x : FoundEvent) (p : Prepared) (hu : Allowed rels svc.upserts p.upserts)
    (hd : Allowed rels svc.deletes p.deletes) (hx : ∀ rel, x.2 = some rel → rels (oidOf x) rel) :
    Allowed rels svc.upserts (next svc x.1 x.2 p).upserts ∧
      Allowed rels svc.deletes (next svc x.1 x.2 p).deletes := by
  have hupsert := allowed_prepare hu (oidOf x) x.2 hx
  have hdelete := allowed_prepare hd (oidOf x) x.2 hx
  unfold next
  split
  · exact ⟨hu, hd⟩
  · exact ⟨hupsert, hd⟩
  · exact ⟨hupsert, hd⟩
  · exact ⟨hu, hdelete⟩

theorem planned_table (xs : List FoundEvent) (p : Prepared)
    (hu : Allowed rels svc.upserts p.upserts) (hd : Allowed rels svc.deletes p.deletes)
    (hxs : ∀ x ∈ xs, ∀ rel, x.2 = some rel → rels (oidOf x) rel) :
    ∀ y ∈ planned svc xs p, y.2 = id ∨ ∃ rel g, rels y.1 rel ∧ y.2 = onTable rel.name g := by
  induction xs generalizing p with
  | nil =>
    intro y hy
    cases hy
  | cons x xs ih =>
    have hx := hxs x (by simp)
    obtain ⟨hnu, hnd⟩ := next_allowed x p hu hd hx
    intro y hy
    rcases List.mem_cons.mp hy with rfl | hy
    · exact effect_table x p hu hd hx
    · exact ih _ hnu hnd (fun z hz => hxs z (List.mem_cons_of_mem x hz)) y hy

theorem planned_comm (hown : ∀ oid oid' rel rel', rels oid rel → rels oid' rel' →
      rel.name = rel'.name → oid = oid')
    (xs : List FoundEvent) (p : Prepared) (hu : Allowed rels svc.upserts p.upserts)
    (hd : Allowed rels svc.deletes p.deletes)
    (hxs : ∀ x ∈ xs, ∀ rel, x.2 = some rel → rels (oidOf x) rel) :
    ∀ y ∈ planned svc xs p, ∀ z ∈ planned svc xs p, y.1 ≠ z.1 →
      ∀ tables, y.2 (z.2 tables) = z.2 (y.2 tables) := by
  intro y hy z hz hne tables
  rcases planned_table xs p hu hd hxs y hy with he | ⟨rel, g, hrel, he⟩
  · rw [he]
    rfl
  · rcases planned_table xs p hu hd hxs z hz with he' | ⟨rel', g', hrel', he'⟩
    · rw [he']
      rfl
    · rw [he, he']
      apply onTable_comm
      exact fun hname => hne (hown _ _ rel rel' hrel hrel' hname)

end Tables

section Panics
variable {svc : Service}

theorem toSql_bindable (v : PgValue) (h : bindable v = true) : toSql v ≠ panicked := by
  cases v with
  | timestamp t =>
    have ht : toSql (.timestamp t) = .ok (.timestamp t) := if_pos h
    rw [ht]
    exact fun he => by cases he
  | _ => exact fun he => by cases he

theorem convert_bindable (params : List PgValue) (h : params.all bindable = true) :
    convert (params.map toSql) ≠ panicked := by
  induction params with
  | nil => exact fun he => by cases he
  | cons v params ih =>
    rw [List.all_cons, Bool.and_eq_true] at h
    have hv := toSql_bindable v h.1
    have ih := ih h.2
    rw [List.map_cons, convert]
    cases hc : toSql v with
    | error e =>
      rw [hc] at hv
      exact fun he => hv (by cases he; rfl)
    | ok c =>
      cases hcs : convert (params.map toSql) with
      | error e =>
        rw [hcs] at ih
        exact fun he => ih (by cases he; rfl)
      | ok cs => exact fun he => by cases he

theorem statementEffect_isSome (columns : List String) (name : String) (command : Command)
    (params : List PgValue) (answer : Option (List Cell → Bool))
    (h : params.all bindable = true) :
    (statementEffect columns name command params answer).isSome = true := by
  have hconvert := convert_bindable params h
  unfold statementEffect
  split
  · rfl
  · split
    · rfl
    · split
      · split <;> rfl
      · rfl
      · next he => exact absurd he hconvert

theorem effect_isSome (x : FoundEvent) (p : Prepared) (h : convertible x = true) :
    (effect svc x.1 x.2 p).isSome = true := by
  have hwrite : ∀ (row : List PgValue) (rel : Option Relation), row.all bindable = true →
      (upsertEffect svc row rel).isSome = true := by
    intro row rel hrow
    cases rel with
    | none => rfl
    | some rel => exact statementEffect_isSome _ _ _ row _ hrow
  unfold convertible at h
  unfold effect
  split
  · rfl
  · next hm =>
    rw [hm] at h
    exact hwrite _ _ h
  · next hm =>
    rw [hm] at h
    exact hwrite _ _ h
  · next old hm =>
    rw [hm] at h
    cases hk : x.2 with
    | none =>
      cases (p.deletes x.1.rel).or none <;> rfl
    | some known =>
      rw [hk] at h
      cases (p.deletes x.1.rel).or (some known) with
      | none => rfl
      | some rel => exact statementEffect_isSome _ _ _ (boundOld known old) _ h

end Panics

section Run
variable {D : Type} [PostgresClient D] {tables : D → Tables} {svc : Service}
  {rels : Oid → Relation → Prop}

omit [PostgresClient D] in
theorem holds_relation {s : Sink D} {known : Oid → Option Relation} {p : Prepared}
    (hs : Holds svc rels s known p) (relation : Relation)
    (hcome : rels relation.relationOid relation) :
    Holds svc rels (onRelation relation s).1 (latest known (.relation relation)) p := by
  refine ⟨?_, hs.upserts, hs.deletes, fun oid rel h => ?_, hs.upserts_allowed, hs.deletes_allowed⟩
  · unfold onRelation latest
    dsimp only
    rw [hs.relations, RelationCache.update_fromRels]
  · simp only [latest] at h
    by_cases ho : oid = relation.relationOid
    · subst ho
      rw [Function.update_self, Option.some.injEq] at h
      rw [← h]
      exact hcome
    · rw [Function.update_of_ne ho] at h
      exact hs.known_may_come oid rel h

theorem step_taken (event : ChangeEvent) (s : Sink D) (h : (onEvent event s).2 ≠ panicked) :
    step (.event event) s = some (onEvent event s).1 := by
  unfold step
  dsimp only
  split
  · next heq =>
    rw [heq] at h
    exact absurd rfl h
  · next heq => rw [heq]

/-- Where no value panics, the calls go through, and the tables get what is
planned. -/
theorem run_planned (h : Hosts tables svc rels) (calls : List Call) (s : Sink D)
    (known : Oid → Option Relation) (p : Prepared) (hs : Holds svc rels s known p)
    (hcome : ∀ relation, .relation relation ∈ calls → rels relation.relationOid relation)
    (hconv : ∀ x ∈ found known calls, convertible x = true) :
    ∃ s' p', run step calls s = some s' ∧ Holds svc rels s' (calls.foldl latest known) p' ∧
      tables s'.client =
        applied ((planned svc (found known calls) p).map Prod.snd) (tables s.client) := by
  induction calls generalizing s known p with
  | nil => exact ⟨s, p, rfl, hs, rfl⟩
  | cons call calls ih =>
    have hrest : ∀ relation, Call.relation relation ∈ calls → rels relation.relationOid relation :=
      fun relation hmem => hcome relation (List.mem_cons_of_mem call hmem)
    cases call with
    | relation relation =>
      have hnext := holds_relation hs relation (hcome relation (by simp))
      exact ih _ _ p hnext hrest hconv
    | event event =>
      obtain ⟨hdid, hnext⟩ := onEvent_planned h hs event
      have heff : (effect svc event (known event.rel) p).isSome = true :=
        effect_isSome (event, known event.rel) p (hconv _ (by simp [found]))
      obtain ⟨f, hf⟩ := Option.isSome_iff_exists.mp heff
      rw [hf] at hdid
      obtain ⟨s', p', hrun, hlast, htables⟩ := ih _ known _ hnext hrest
        (fun x hx => hconv x (by simp [found, hx]))
      refine ⟨s', p', ?_, hlast, ?_⟩
      · rw [run, step_taken event s hdid.1]
        exact hrun
      · rw [htables, hdid.2, found, planned, hf]
        rfl

theorem run_seen (h : Hosts tables svc (fun oid rel => ∃ r, rels oid r ∧ seen r = rel))
    (calls : List Call) (known : Oid → Option Relation) (d : D)
    (hknown : ∀ oid rel, known oid = some rel → rels oid rel)
    (hcome : ∀ relation, .relation relation ∈ calls → rels relation.relationOid relation)
    (hconv : ∀ x ∈ found known calls, convertible x = true) :
    ∃ s, run step calls (new d known) = some s ∧
      tables s.client = applied ((planned svc ((found known calls).map seenEvent)
        ⟨fun _ => none, fun _ => none⟩).map Prod.snd) (tables d) := by
  have hsteps : ∀ s : Sink D, run step (calls.map seenCall) s = run step calls s := by
    clear hcome hconv
    induction calls with
    | nil => exact fun s => rfl
    | cons call calls ih =>
      intro s
      rw [List.map_cons, run, run, step_seen, funext ih]
  have hseen : ∀ oid rel, seenKnown known oid = some rel → ∃ r, rels oid r ∧ seen r = rel := by
    intro oid rel hrel
    obtain ⟨r, hr, hrel⟩ := Option.map_eq_some_iff.mp hrel
    exact ⟨r, hknown oid r hr, hrel⟩
  have hreceived : ∀ relation, .relation relation ∈ calls.map seenCall →
      ∃ r, rels relation.relationOid r ∧ seen r = relation := by
    intro relation hmem
    obtain ⟨call, hcall, hrel⟩ := List.mem_map.mp hmem
    cases call with
    | event event => cases hrel
    | relation r =>
      cases hrel
      exact ⟨r, hcome r hcall, rfl⟩
  have hbound : ∀ x ∈ found (seenKnown known) (calls.map seenCall), convertible x = true := by
    intro x hx
    rw [found_seen] at hx
    obtain ⟨y, hy, rfl⟩ := List.mem_map.mp hx
    rw [seen_convertible]
    exact hconv y hy
  obtain ⟨s, _, hrun, _, htables⟩ := run_planned h (calls.map seenCall)
    (new d (seenKnown known)) (seenKnown known) _ (holds_new svc _ d _ hseen) hreceived hbound
  rw [hsteps, new_seen] at hrun
  rw [found_seen] at htables
  exact ⟨s, hrun, htables⟩

end Run

end CDC.FoundRelations
