import CdcConnector.FelderaImages
import CdcConnector.PartialRun

/-!
# The source's tables at Feldera

Feldera adds up the changes, so a table there holds the images of the source's
rows, each as often as at the source, as long as every change is taken. The
order of the changes does not matter, but a change that is sent twice counts
twice.
-/

set_option autoImplicit false

namespace CDC.FelderaTables
open CDC.Fallible CDC.Event CDC.SinkModel CDC.PartialRun CDC.Feldera CDC.SinkDatabase
open CDC.SourceTable CDC.Weights CDC.FelderaSink CDC.FelderaImages

section Server
variable {F E : Type} [FelderaClient F] [ToString E]

/-- A server with the tables of a pipeline: a batch that it takes is added up,
one that it refuses changes nothing. -/
structure Ingests (pipeline : String) (weights : F → String → Content →₀ ℤ) : Prop where
  taken : ∀ (r : Request) (f f' : F) (changes : List (Change Content)), r.pipelineName = pipeline →
    r.format = "json" → r.updateFormat = .insertDelete → readBody r.body = some changes →
    FelderaClient.send r f = (f', .ok ()) → weights f' =
      Function.update (weights f) r.tableName (weights f r.tableName + total changes)
  refused : ∀ (r : Request) (f f' : F) (e : String), r.pipelineName = pipeline →
    FelderaClient.send r f = (f', .error e) → weights f' = weights f

/-- The connector of a pipeline, which has heard of relations that are known. -/
structure Linked (pipeline : String) (overflowChecks : Bool)
    (write : ℕ → FelderaEvent → Except E (List Char)) (known : Oid → Option Relation)
    (k : FelderaConnector F E) : Prop where
  pipeline_eq : k.pipeline = pipeline
  checks_eq : k.overflowChecks = overflowChecks
  write_eq : k.write = write
  heard : ∀ oid, k.tableNames oid = none ∨ ∃ rel, known oid = some rel ∧
    k.tableNames oid = some rel.name ∧ k.fieldNames oid = some (extractNames rel.fields)

variable {pipeline : String} {weights : F → String → Content →₀ ℤ} {overflowChecks : Bool}
  {write : ℕ → FelderaEvent → Except E (List Char)} {known : Oid → Option Relation}

omit [FelderaClient F] [ToString E] in
theorem linked_new (inner : F) (loaded : Oid → Option Relation)
    (hloaded : ∀ oid rel, loaded oid = some rel → known oid = some rel) :
    Linked pipeline overflowChecks write known (new inner pipeline loaded overflowChecks write) := by
  refine ⟨rfl, rfl, rfl, fun oid => ?_⟩
  simp only [new]
  cases hrel : loaded oid with
  | none => exact Or.inl rfl
  | some rel => exact Or.inr ⟨rel, hloaded oid rel hrel, rfl, rfl⟩

omit [FelderaClient F] [ToString E] in
theorem linked_relation (k : FelderaConnector F E) (hk : Linked pipeline overflowChecks write known k)
    (relation : Relation) (hknown : known relation.relationOid = some relation) :
    Linked pipeline overflowChecks write known (onRelation relation k).1 := by
  refine ⟨hk.pipeline_eq, hk.checks_eq, hk.write_eq, fun oid => ?_⟩
  simp only [onRelation]
  by_cases ho : oid = relation.relationOid
  · subst ho
    rw [Function.update_self, Function.update_self]
    exact Or.inr ⟨relation, hknown, rfl, rfl⟩
  · rw [Function.update_of_ne ho, Function.update_of_ne ho]
    exact hk.heard oid

theorem insertBatch_sent (hserver : Ingests pipeline weights) (hwrites : WritesJson write)
    (k : FelderaConnector F E) (hk : Linked pipeline overflowChecks write known k) (table : String)
    (records : List ChangeEvent) (batch : List FelderaEvent)
    (hbatch : convertOpBatches k.overflowChecks k.fieldNames records = .ok batch) :
    ∃ inner answer, insertBatch table records k =
        ({ k with inner := inner, written := k.written + batch.length }, answer) ∧
      ((answer = .ok () ∧ weights inner = Function.update (weights k.inner) table
          (weights k.inner table + total (batch.map change))) ∨
        ∃ e, answer = fail (.feldera e) ∧ weights inner = weights k.inner) := by
  obtain ⟨documents, hdocuments, hbody⟩ := toLines_documents write hwrites batch k.written
  have hread := documents_read batch documents hdocuments
  generalize documents.flatMap (fun document => document ++ ['\n']) = body at hbody hread
  rw [← hk.write_eq] at hbody
  rw [insertBatch, hbatch]
  dsimp only
  rw [hbody]
  dsimp only
  cases hsend : FelderaClient.send ⟨k.pipeline, table, "json", .insertDelete, false, body⟩ k.inner with
  | mk inner answer =>
    cases answer with
    | ok u =>
      have htaken := hserver.taken _ _ _ _ hk.pipeline_eq rfl rfl hread hsend
      exact ⟨inner, .ok (), rfl, Or.inl ⟨rfl, htaken⟩⟩
    | error e =>
      have hrefused := hserver.refused _ _ _ _ hk.pipeline_eq hsend
      exact ⟨inner, fail (.feldera e), rfl, Or.inr ⟨e, rfl, hrefused⟩⟩

/-- What an operation on a known table does: its delta is added, or an error is
returned and the tables stay as they are. -/
theorem onEvent_table (hserver : Ingests pipeline weights) (hwrites : WritesJson write)
    (k : FelderaConnector F E) (hk : Linked pipeline overflowChecks write known k) (x : TableOp)
    (hknown : known x.rel.relationOid = some x.rel) (hnodup : (extractNames x.rel.fields).Nodup)
    (hshaped : Shaped x.rel x.op) :
    Linked pipeline overflowChecks write known (onEvent (fullEvent x) k).1 ∧
      ((onEvent (fullEvent x) k).2 = .ok () → weights (onEvent (fullEvent x) k).1.inner =
        Function.update (weights k.inner) x.rel.name
          (weights k.inner x.rel.name + opDelta overflowChecks x.rel x.op)) ∧
      ((onEvent (fullEvent x) k).2 ≠ .ok () →
        weights (onEvent (fullEvent x) k).1.inner = weights k.inner) := by
  obtain rfl := hk.checks_eq
  have hmerge := merge_full x hshaped
  rw [onEvent, hmerge]
  dsimp only
  rw [fullEvent_rel]
  rcases hk.heard x.rel.relationOid with hnone | ⟨rel, hrel, htable, hnames⟩
  · rw [hnone]
    exact ⟨hk, fun h => (by cases h), fun _ => rfl⟩
  · obtain rfl := Option.some.inj (hknown.symm.trans hrel)
    rw [htable]
    have hsingle := @convert_single k.overflowChecks k.fieldNames ⟨filledOp x.op, x.rel.relationOid⟩
    dsimp only
    cases hconv : convertEvent k.overflowChecks k.fieldNames ⟨filledOp x.op, x.rel.relationOid⟩ with
    | error e =>
      obtain rfl := convertEvent_error _ _ hnames e hconv
      rw [hconv] at hsingle
      have hinsert : insertBatch x.rel.name [⟨filledOp x.op, x.rel.relationOid⟩] k = (k, panicked) := by
        rw [insertBatch, hsingle]
      rw [hinsert]
      exact ⟨hk, fun h => (by cases h), fun _ => rfl⟩
    | ok out =>
      rw [hconv] at hsingle
      obtain ⟨inner, answer, hinsert, hanswer⟩ := insertBatch_sent hserver hwrites k hk x.rel.name _
        out hsingle
      have hdelta := converted_delta x hnames hnodup hshaped out hconv
      have hlinked : Linked pipeline k.overflowChecks write known
          { k with inner := inner, written := k.written + out.length } :=
        ⟨hk.pipeline_eq, hk.checks_eq, hk.write_eq, hk.heard⟩
      rw [hinsert]
      rcases hanswer with ⟨rfl, hweights⟩ | ⟨e, rfl, hweights⟩
      · rw [hdelta] at hweights
        exact ⟨hlinked, fun _ => hweights, fun h => absurd rfl h⟩
      · exact ⟨hlinked, fun h => (by cases h), fun _ => hweights⟩

inductive Input where
  | relation (relation : Relation)
  | op (x : TableOp)

def felderaStep (s : Option (FelderaConnector F E)) : Input → Option (FelderaConnector F E)
  | .relation relation => s.map (fun k => (onRelation relation k).1)
  | .op x => s.bind (fun k =>
    match onEvent (fullEvent x) k with
    | (_, .error .panic) => none
    | (k, _) => some k)

def sourceStep (bags : Bags) : Input → Bags
  | .relation _ => bags
  | .op x => bagsStep bags x

def operations (inputs : List Input) : List TableOp :=
  inputs.filterMap (fun
    | .relation _ => none
    | .op x => some x)

theorem felderaStep_eq (k : FelderaConnector F E) (x : TableOp) :
    felderaStep (some k) (.op x) =
      if (onEvent (fullEvent x) k).2 = panicked then none else some (onEvent (fullEvent x) k).1 := by
  rw [felderaStep, Option.bind_some]
  split
  · next heq =>
    rw [heq]
    exact (if_pos rfl).symm
  · next hne heq =>
    rw [heq]
    exact (if_neg hne).symm

variable (weights overflowChecks known)

/-- The process runs, and the tables hold the images of the source's rows. -/
def Exact (s : Option (FelderaConnector F E)) (bags : Bags) : Prop :=
  ∃ k, s = some k ∧ ∀ oid rel, known oid = some rel →
    weights k.inner rel.name = images overflowChecks rel (bags oid)

def Taken (s : Option (FelderaConnector F E)) : Input → Prop
  | .relation _ => True
  | .op x => ∃ k, s = some k ∧ (onEvent (fullEvent x) k).2 = .ok ()

/-- The operation is taken, or it is refused and changes no image. -/
def Carried (s : Option (FelderaConnector F E)) : Input → Prop
  | .relation _ => True
  | .op x => ∃ k, s = some k ∧ ((onEvent (fullEvent x) k).2 = .ok () ∨
      (onEvent (fullEvent x) k).2 ≠ panicked ∧ opDelta overflowChecks x.rel x.op = 0)

/-- A relation that arrives is the one of its oid, and the source does what it
can. -/
def Possible (bags : Bags) : Input → Prop
  | .relation relation => known relation.relationOid = some relation
  | .op x => Allowed known bags x

structure Distinct : Prop where
  columns : ∀ oid rel, known oid = some rel → (extractNames rel.fields).Nodup
  own_table : ∀ oid oid' rel rel', known oid = some rel → known oid' = some rel' →
    rel.name = rel'.name → oid = oid'

instance (s : Option (FelderaConnector F E)) : (i : Input) → Decidable (Taken s i)
  | .relation _ => isTrue trivial
  | .op x => decidable_of_iff (∃ k ∈ s, (onEvent (fullEvent x) k).2 = .ok ()) (by rfl)

instance (bags : Bags) : (i : Input) → Decidable (Possible known bags i)
  | .relation relation => inferInstanceAs (Decidable (known relation.relationOid = some relation))
  | .op x => inferInstanceAs (Decidable (Allowed known bags x))

theorem taken_carried (s : Option (FelderaConnector F E)) (i : Input) (h : Taken s i) :
    Carried overflowChecks s i := by
  cases i with
  | relation relation => trivial
  | op x =>
    obtain ⟨k, hk, hok⟩ := h
    exact ⟨k, hk, Or.inl hok⟩

variable {weights overflowChecks known}

omit [FelderaClient F] [ToString E] in
theorem tables_step (hdistinct : Distinct known) (bags : Bags) (x : TableOp)
    (hallowed : Allowed known bags x) (f f' : F)
    (h : ∀ oid rel, known oid = some rel → weights f rel.name = images overflowChecks rel (bags oid))
    (hf' : weights f' = Function.update (weights f) x.rel.name
      (weights f x.rel.name + opDelta overflowChecks x.rel x.op)) :
    ∀ oid rel, known oid = some rel →
      weights f' rel.name = images overflowChecks rel (bagsStep bags x oid) := by
  obtain ⟨hknown, _, hpresent⟩ := hallowed
  intro oid rel hrel
  rw [hf', bagsStep]
  by_cases hoid : oid = x.rel.relationOid
  · subst hoid
    obtain rfl := Option.some.inj (hknown.symm.trans hrel)
    rw [Function.update_self, Function.update_self, h _ _ hrel, images_step _ _ _ _ hpresent]
  · have hname : rel.name ≠ x.rel.name :=
      fun he => hoid (hdistinct.own_table _ _ _ _ hrel hknown he)
    rw [Function.update_of_ne hname, Function.update_of_ne hoid]
    exact h oid rel hrel

def Synced (pipeline : String) (weights : F → String → Content →₀ ℤ) (overflowChecks : Bool)
    (write : ℕ → FelderaEvent → Except E (List Char)) (known : Oid → Option Relation)
    (s : Option (FelderaConnector F E)) (bags : Bags) : Prop :=
  Exact weights overflowChecks known s bags ∧
    ∀ k, s = some k → Linked pipeline overflowChecks write known k

theorem synced_step (hserver : Ingests pipeline weights) (hwrites : WritesJson write)
    (hdistinct : Distinct known) (s : Option (FelderaConnector F E)) (bags : Bags) (i : Input)
    (h : Synced pipeline weights overflowChecks write known s bags) (hpossible : Possible known bags i)
    (hcarried : Carried overflowChecks s i) :
    Synced pipeline weights overflowChecks write known (felderaStep s i) (sourceStep bags i) := by
  obtain ⟨⟨k, rfl, htables⟩, hlinked⟩ := h
  cases i with
  | relation relation =>
    refine ⟨⟨_, rfl, htables⟩, fun _ hsome => ?_⟩
    obtain rfl := Option.some.inj hsome
    exact linked_relation k (hlinked k rfl) relation hpossible
  | op x =>
    obtain ⟨k', hk', hanswer⟩ := hcarried
    cases hk'
    obtain ⟨hknown, hshaped, hpresent⟩ := hpossible
    obtain ⟨hnext, htaken, hrefused⟩ := onEvent_table hserver hwrites k (hlinked k rfl) x hknown
      (hdistinct.columns _ _ hknown) hshaped
    have hgoes : (onEvent (fullEvent x) k).2 ≠ panicked := by
      rcases hanswer with hok | ⟨hgoes, _⟩
      · rw [hok]
        exact fun h => by cases h
      · exact hgoes
    have hweights : weights (onEvent (fullEvent x) k).1.inner = Function.update (weights k.inner)
        x.rel.name (weights k.inner x.rel.name + opDelta overflowChecks x.rel x.op) := by
      by_cases hok : (onEvent (fullEvent x) k).2 = .ok ()
      · exact htaken hok
      · rcases hanswer with hok' | ⟨_, hzero⟩
        · exact absurd hok' hok
        · rw [hrefused hok, hzero, add_zero, Function.update_eq_self]
    rw [felderaStep_eq, if_neg hgoes]
    refine ⟨⟨_, rfl, ?_⟩, fun _ hsome => (Option.some.inj hsome) ▸ hnext⟩
    exact tables_step hdistinct bags x ⟨hknown, hshaped, hpresent⟩ _ _ htables hweights

theorem carried_of_exact (hserver : Ingests pipeline weights) (hwrites : WritesJson write)
    (hdistinct : Distinct known) (s : Option (FelderaConnector F E)) (bags : Bags) (i : Input)
    (h : Synced pipeline weights overflowChecks write known s bags) (hpossible : Possible known bags i)
    (hexact : Exact weights overflowChecks known (felderaStep s i) (sourceStep bags i)) :
    Carried overflowChecks s i := by
  obtain ⟨⟨k, rfl, htables⟩, hlinked⟩ := h
  cases i with
  | relation relation => trivial
  | op x =>
    obtain ⟨hknown, hshaped, hpresent⟩ := hpossible
    obtain ⟨_, _, hrefused⟩ := onEvent_table hserver hwrites k (hlinked k rfl) x hknown
      (hdistinct.columns _ _ hknown) hshaped
    obtain ⟨k', hk', hnow⟩ := hexact
    rw [felderaStep_eq] at hk'
    refine ⟨k, rfl, ?_⟩
    by_cases hok : (onEvent (fullEvent x) k).2 = .ok ()
    · exact Or.inl hok
    · split_ifs at hk' with hpanic
      cases hk'
      refine Or.inr ⟨hpanic, ?_⟩
      have htable := hnow _ _ hknown
      rw [hrefused hok, sourceStep, bagsStep, Function.update_self, images_step _ _ _ _ hpresent,
        htables _ _ hknown] at htable
      exact left_eq_add.mp htable

/-- Over every sequence of relations and operations of the source: after every
prefix each Feldera table holds the images of the source's rows, exactly when
every operation is taken or changes no image. -/
theorem tables_hold_source_iff (hserver : Ingests pipeline weights) (hwrites : WritesJson write)
    (hdistinct : Distinct known) (loaded : Oid → Option Relation)
    (hloaded : ∀ oid rel, loaded oid = some rel → known oid = some rel) (inner : F) (bags : Bags)
    (hstart : ∀ oid rel, known oid = some rel →
      weights inner rel.name = images overflowChecks rel (bags oid))
    (inputs : List Input)
    (hpossible : Meets (fun i bags => some (sourceStep bags i)) (Possible known) inputs bags) :
    (∀ pre post, inputs = pre ++ post → Exact weights overflowChecks known
        (pre.foldl felderaStep (some (new inner pipeline loaded overflowChecks write)))
        (pre.foldl sourceStep bags)) ↔
      Meets (fun i s => some (felderaStep s i)) (Carried overflowChecks) inputs
        (some (new inner pipeline loaded overflowChecks write)) := by
  apply prefixes_iff_states felderaStep sourceStep
    (Synced pipeline weights overflowChecks write known) (Exact weights overflowChecks known)
    (Possible known) ?_ ?_ ?_ inputs _ bags ?_ hpossible
  · exact fun _ _ h => h.1
  · exact fun i s bags h hg hc => synced_step hserver hwrites hdistinct s bags i h hg hc
  · exact fun i s bags h hg hp => carried_of_exact hserver hwrites hdistinct s bags i h hg hp
  · exact ⟨⟨_, rfl, hstart⟩, fun _ hk => Option.some.inj hk ▸ linked_new inner loaded hloaded⟩

noncomputable def deltas (overflowChecks : Bool) (oid : Oid) (log : List TableOp) : Content →₀ ℤ :=
  ((log.filter (fun x => x.rel.relationOid = oid)).map
    (fun x => opDelta overflowChecks x.rel x.op)).sum

theorem deltas_cons (oid : Oid) (x : TableOp) (log : List TableOp) :
    deltas overflowChecks oid (x::log) =
      (if x.rel.relationOid = oid then opDelta overflowChecks x.rel x.op else 0) +
        deltas overflowChecks oid log := by
  rw [deltas, List.filter_cons]
  by_cases hoid : x.rel.relationOid = oid
  · rw [if_pos (decide_eq_true hoid), if_pos hoid, List.map_cons, List.sum_cons]
    rfl
  · rw [if_neg (by simpa using hoid), if_neg hoid, zero_add]
    rfl

theorem deltas_append (oid : Oid) (xs ys : List TableOp) :
    deltas overflowChecks oid (xs ++ ys) =
      deltas overflowChecks oid xs + deltas overflowChecks oid ys := by
  rw [deltas, List.filter_append, List.map_append, List.sum_append]
  rfl

theorem deltas_perm (oid : Oid) (xs ys : List TableOp) (h : xs.Perm ys) :
    deltas overflowChecks oid xs = deltas overflowChecks oid ys :=
  ((h.filter _).map _).sum_eq

theorem images_run (ops : List TableOp) (bags : Bags)
    (h : Meets (fun x bags => some (bagsStep bags x)) (Allowed known) ops bags) :
    ∀ oid rel, known oid = some rel → images overflowChecks rel (ops.foldl bagsStep bags oid) =
      images overflowChecks rel (bags oid) + deltas overflowChecks oid ops := by
  induction ops generalizing bags with
  | nil => exact fun _ _ _ => (add_zero _).symm
  | cons x ops ih =>
    obtain ⟨⟨hknown, _, hpresent⟩, hrest⟩ := h _ rfl
    intro oid rel hrel
    rw [List.foldl_cons, ih _ hrest oid rel hrel, deltas_cons, bagsStep, ← add_assoc]
    congr 1
    by_cases hoid : x.rel.relationOid = oid
    · subst hoid
      obtain rfl := Option.some.inj (hknown.symm.trans hrel)
      rw [Function.update_self, if_pos rfl, images_step _ _ _ _ hpresent]
    · rw [Function.update_of_ne (Ne.symm hoid), if_neg hoid, add_zero]

theorem allowed_shaped (ops : List TableOp) (bags : Bags)
    (h : Meets (fun x bags => some (bagsStep bags x)) (Allowed known) ops bags) :
    ∀ x ∈ ops, known x.rel.relationOid = some x.rel ∧ Shaped x.rel x.op := by
  induction ops generalizing bags with
  | nil => exact fun _ hx => by cases hx
  | cons x ops ih =>
    obtain ⟨⟨hknown, hshaped, _⟩, hrest⟩ := h _ rfl
    intro y hy
    rcases List.mem_cons.mp hy with rfl | hy
    · exact ⟨hknown, hshaped⟩
    · exact ih _ hrest y hy

theorem deltas_run (hserver : Ingests pipeline weights) (hwrites : WritesJson write)
    (hdistinct : Distinct known) (log : List Input)
    (hrelations : ∀ relation, .relation relation ∈ log → known relation.relationOid = some relation)
    (hlog : ∀ x ∈ operations log, known x.rel.relationOid = some x.rel ∧ Shaped x.rel x.op)
    (k : FelderaConnector F E) (hk : Linked pipeline overflowChecks write known k)
    (htaken : Meets (fun i s => some (felderaStep s i)) Taken log (some k)) :
    ∃ k', log.foldl felderaStep (some k) = some k' ∧ ∀ oid rel, known oid = some rel →
      weights k'.inner rel.name =
        weights k.inner rel.name + deltas overflowChecks oid (operations log) := by
  induction log generalizing k with
  | nil => exact ⟨k, rfl, fun _ _ _ => (add_zero _).symm⟩
  | cons i log ih =>
    obtain ⟨hi, hrest⟩ := htaken _ rfl
    have hlater := fun relation hmem => hrelations relation (List.mem_cons_of_mem i hmem)
    cases i with
    | relation relation =>
      have hnext := linked_relation k hk relation (hrelations relation List.mem_cons_self)
      exact ih hlater hlog _ hnext hrest
    | op x =>
      obtain ⟨_, hk', hok⟩ := hi
      cases hk'
      obtain ⟨hknown, hshaped⟩ := hlog x List.mem_cons_self
      obtain ⟨hnext, hadds, _⟩ := onEvent_table hserver hwrites k hk x hknown
        (hdistinct.columns _ _ hknown) hshaped
      have hstep : felderaStep (some k) (.op x) = some (onEvent (fullEvent x) k).1 := by
        rw [felderaStep_eq, if_neg]
        rw [hok]
        exact fun h => by cases h
      rw [hstep] at hrest
      obtain ⟨k', hrun, hweights⟩ := ih hlater (fun y hy => hlog y (List.mem_cons_of_mem x hy)) _ hnext
        hrest
      refine ⟨k', ?_, fun oid rel hrel => ?_⟩
      · rw [List.foldl_cons, hstep]
        exact hrun
      · show _ = _ + deltas overflowChecks oid (x :: operations log)
        rw [hweights oid rel hrel, hadds hok, deltas_cons, ← add_assoc]
        congr 1
        by_cases hoid : x.rel.relationOid = oid
        · subst hoid
          obtain rfl := Option.some.inj (hknown.symm.trans hrel)
          rw [Function.update_self, if_pos rfl]
        · have hname : rel.name ≠ x.rel.name :=
            fun he => hoid (hdistinct.own_table _ _ _ _ hknown hrel he.symm)
          rw [Function.update_of_ne hname, if_neg hoid, add_zero]

/-- The operations may come in any order, and some of them again. When all that
come are taken, each table holds the images of the source's rows and once more
what came again, so the tables are the source's exactly when what came again
cancels out. -/
theorem reread_counts_twice (hserver : Ingests pipeline weights) (hwrites : WritesJson write)
    (hdistinct : Distinct known) (loaded : Oid → Option Relation)
    (hloaded : ∀ oid rel, loaded oid = some rel → known oid = some rel) (inner : F) (bags : Bags)
    (hstart : ∀ oid rel, known oid = some rel →
      weights inner rel.name = images overflowChecks rel (bags oid))
    (ops : List TableOp)
    (hallowed : Meets (fun x bags => some (bagsStep bags x)) (Allowed known) ops bags)
    (again : List TableOp) (hagain : again ⊆ ops) (log : List Input)
    (hlog : (operations log).Perm (ops ++ again))
    (hrelations : ∀ relation, .relation relation ∈ log → known relation.relationOid = some relation)
    (htaken : Meets (fun i s => some (felderaStep s i)) Taken log
      (some (new inner pipeline loaded overflowChecks write))) :
    (∃ k, log.foldl felderaStep (some (new inner pipeline loaded overflowChecks write)) = some k ∧
      ∀ oid rel, known oid = some rel → weights k.inner rel.name =
        images overflowChecks rel (ops.foldl bagsStep bags oid) + deltas overflowChecks oid again) ∧
    (Exact weights overflowChecks known
        (log.foldl felderaStep (some (new inner pipeline loaded overflowChecks write)))
        (ops.foldl bagsStep bags) ↔
      ∀ oid rel, known oid = some rel → deltas overflowChecks oid again = 0) := by
  have hshaped := allowed_shaped ops bags hallowed
  have hall : ∀ x ∈ operations log, known x.rel.relationOid = some x.rel ∧ Shaped x.rel x.op := by
    intro x hx
    rcases List.mem_append.mp (hlog.subset hx) with hx | hx
    · exact hshaped x hx
    · exact hshaped x (hagain hx)
  obtain ⟨k, hrun, hweights⟩ := deltas_run hserver hwrites hdistinct log hrelations hall _
    (linked_new inner loaded hloaded) htaken
  have hsum : ∀ oid rel, known oid = some rel → weights k.inner rel.name =
      images overflowChecks rel (ops.foldl bagsStep bags oid) +
        deltas overflowChecks oid again := by
    intro oid rel hrel
    have hbefore : weights inner rel.name = images overflowChecks rel (bags oid) := hstart oid rel hrel
    rw [images_run ops bags hallowed oid rel hrel, add_assoc, ← deltas_append,
      ← deltas_perm oid _ (ops ++ again) hlog, ← hbefore]
    exact hweights oid rel hrel
  refine ⟨⟨k, hrun, hsum⟩, ?_⟩
  rw [hrun]
  constructor
  · rintro ⟨k', hk', hexact⟩ oid rel hrel
    cases hk'
    have htable := hsum oid rel hrel
    rw [hexact oid rel hrel] at htable
    exact left_eq_add.mp htable
  · intro hzero
    refine ⟨k, rfl, fun oid rel hrel => ?_⟩
    rw [hsum oid rel hrel, hzero oid rel hrel, add_zero]

end Server

structure Ingress where
  requests : List Request

namespace Ingress

def send (r : Request) (f : Ingress) : Ingress × Except String Unit :=
  if r.pipelineName = "p" ∧ r.format = "json" ∧ (readBody r.body).isSome = true then
    (⟨f.requests ++ [r]⟩, .ok ())
  else (f, .error "bad request")

instance : FelderaClient Ingress := ⟨send⟩

noncomputable def add (tables : String → Content →₀ ℤ) (r : Request) : String → Content →₀ ℤ :=
  Function.update tables r.tableName (tables r.tableName + total ((readBody r.body).getD []))

noncomputable def tables (f : Ingress) : String → Content →₀ ℤ := f.requests.foldl add (fun _ => 0)

theorem ingests : Ingests "p" tables where
  taken r f f' changes _ _ _ hread hsend := by
    simp only [FelderaClient.send, send] at hsend
    split_ifs at hsend with hready
    · cases hsend
      rw [tables, List.foldl_append]
      show add (tables f) r = _
      rw [add, hread]
      rfl
    · cases hsend
  refused r f f' e _ hsend := by
    simp only [FelderaClient.send, send] at hsend
    split_ifs at hsend with hready
    · cases hsend
    · cases hsend
      rfl

end Ingress

def users : Relation :=
  ⟨1, "users", "public", [⟨true, "id", .int4⟩, ⟨false, "name", .text⟩], .row⟩

def usersKnown (oid : Oid) : Option Relation := if oid = 1 then some users else none

theorem users_distinct : Distinct usersKnown := by
  have honly : ∀ oid rel, usersKnown oid = some rel → oid = 1 ∧ rel = users := by
    intro oid rel h
    unfold usersKnown at h
    split at h
    · next ho => exact ⟨ho, (Option.some.inj h).symm⟩
    · cases h
  constructor
  · intro oid rel h
    rw [(honly oid rel h).2]
    decide
  · intro oid oid' rel rel' h h' _
    rw [(honly oid rel h).1, (honly oid' rel' h').1]

/-- Two equal rows, one of which moves to another number; its name is not sent
again. -/
def userOps : List TableOp :=
  [⟨users, .insert [.int4 1, .text "a"]⟩, ⟨users, .insert [.int4 1, .text "a"]⟩,
    ⟨users, .update [.int4 1, .text "a"] [.int4 2, .text "a"] [false, true]⟩]

def userInputs : List Input := .relation users :: userOps.map .op

def noUsers : FelderaConnector Ingress Unit := new ⟨[]⟩ "p" (fun _ => none) false writeInOrder

def readAgain : List Input := userInputs ++ (userOps.take 1).map .op

theorem inputs_taken :
    Meets (fun i s => some (felderaStep s i)) Taken userInputs (some noUsers) := by
  decide +kernel

theorem users_at_feldera : Exact Ingress.tables false usersKnown
    (userInputs.foldl felderaStep (some noUsers)) (userInputs.foldl sourceStep (fun _ => 0)) := by
  refine (tables_hold_source_iff Ingress.ingests writeInOrder_writes users_distinct (fun _ => none)
    (fun _ _ h => by cases h) (⟨[]⟩ : Ingress) (fun _ => 0) (fun _ _ _ => rfl) userInputs
    (by decide)).mpr ?_ userInputs [] (by simp)
  exact meets_imp (taken_carried false) userInputs _ inputs_taken

theorem again_is_doubled : ¬ Exact Ingress.tables false usersKnown
    (readAgain.foldl felderaStep (some noUsers)) (userOps.foldl bagsStep (fun _ => 0)) := by
  have htaken : Meets (fun i s => some (felderaStep s i)) Taken readAgain (some noUsers) := by
    decide +kernel
  have hrelations : ∀ relation, Input.relation relation ∈ readAgain →
      usersKnown relation.relationOid = some relation := by
    intro relation hmem
    simp only [readAgain, userInputs, List.cons_append, List.mem_cons, List.mem_append, List.mem_map,
      reduceCtorEq, and_false, exists_false, or_false, Input.relation.injEq] at hmem
    rw [hmem]
    rfl
  have hboth := reread_counts_twice Ingress.ingests writeInOrder_writes users_distinct (fun _ => none)
    (fun _ _ h => by cases h) (⟨[]⟩ : Ingress) (fun _ => 0) (fun _ _ _ => rfl) userOps (by decide)
    (userOps.take 1) (List.take_subset 1 userOps) readAgain (.refl _) hrelations htaken
  intro hexact
  have hzero := hboth.2.mp hexact 1 users rfl
  have hone : deltas false 1 (userOps.take 1) =
      Finsupp.single (image false users [.int4 1, .text "a"]) 1 + 0 := rfl
  rw [hone, add_zero] at hzero
  exact absurd hzero (Finsupp.single_ne_zero.mpr one_ne_zero)

end CDC.FelderaTables
