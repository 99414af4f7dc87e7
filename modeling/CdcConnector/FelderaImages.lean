import CdcConnector.FelderaSink
import CdcConnector.MergeToasted
import CdcConnector.SourceTable

/-!
# Operations as weights

With full replica identity the source sends the old row of an update or a delete
whole. The elements of an operation change the weights of the rows' images by
what the operation does to the source's rows.
-/

set_option autoImplicit false

namespace CDC.FelderaImages
open CDC.Fallible CDC.Event CDC.JsonText CDC.JsonValue CDC.Feldera CDC.SinkDatabase CDC.SourceTable
open CDC.Weights CDC.FelderaSink

section Source

structure TableOp where
  rel : Relation
  op : SourceOp

/-- The events of a table with full replica identity. -/
def fullEvent (x : TableOp) : ChangeEvent :=
  match x.op with
  | .insert row => ⟨.insert (row.map value), x.rel.relationOid⟩
  | .update old new unchanged => ⟨.update (old.map value) (sent new unchanged), x.rel.relationOid⟩
  | .delete old => ⟨.delete (old.map value), x.rel.relationOid⟩

def filledOp : SourceOp → Op
  | .insert row => .insert (row.map value)
  | .update old new _ => .update (old.map value) (new.map value)
  | .delete old => .delete (old.map value)

/-- Rows as long as the table is wide; what is left out of an update is as it
was. -/
def Shaped (rel : Relation) : SourceOp → Prop
  | .insert row => row.length = rel.fields.length
  | .update old new unchanged => old.length = rel.fields.length ∧ new.length = rel.fields.length ∧
      unchanged.length = new.length ∧
      ∀ i < unchanged.length, unchanged[i]? = some true → new[i]? = old[i]?
  | .delete old => old.length = rel.fields.length

def Present (bag : Multiset TableRow) : SourceOp → Prop
  | .insert _ => True
  | .update old _ _ => old ∈ bag
  | .delete old => old ∈ bag

def bagStep (bag : Multiset TableRow) : SourceOp → Multiset TableRow
  | .insert row => row ::ₘ bag
  | .update old new _ => new ::ₘ bag.erase old
  | .delete old => bag.erase old

abbrev Bags := Oid → Multiset TableRow

def bagsStep (bags : Bags) (x : TableOp) : Bags :=
  Function.update bags x.rel.relationOid (bagStep (bags x.rel.relationOid) x.op)

def Allowed (known : Oid → Option Relation) (bags : Bags) (x : TableOp) : Prop :=
  known x.rel.relationOid = some x.rel ∧ Shaped x.rel x.op ∧ Present (bags x.rel.relationOid) x.op

instance (rel : Relation) : (op : SourceOp) → Decidable (Shaped rel op)
  | .insert _ => inferInstanceAs (Decidable (_ = _))
  | .update _ _ _ => inferInstanceAs (Decidable (_ ∧ _ ∧ _ ∧ _))
  | .delete _ => inferInstanceAs (Decidable (_ = _))

instance (bag : Multiset TableRow) : (op : SourceOp) → Decidable (Present bag op)
  | .insert _ => isTrue trivial
  | .update old _ _ => inferInstanceAs (Decidable (old ∈ bag))
  | .delete old => inferInstanceAs (Decidable (old ∈ bag))

instance (known : Oid → Option Relation) (bags : Bags) (x : TableOp) :
    Decidable (Allowed known bags x) :=
  inferInstanceAs (Decidable (_ ∧ _ ∧ _))

def opRows : SourceOp → List TableRow
  | .insert row => [row]
  | .update old new _ => [old, new]
  | .delete old => [old]

theorem fullEvent_rel (x : TableOp) : (fullEvent x).rel = x.rel.relationOid := by
  obtain ⟨rel, op⟩ := x
  cases op <;> rfl

theorem sent_filled (old new : TableRow) (unchanged : List Bool) (i : ℕ)
    (hlen : unchanged.length = new.length)
    (hsame : ∀ j < unchanged.length, unchanged[j]? = some true → new[j]? = old[i+j]?) :
    mergeToastedFrom (old.map value) i (sent new unchanged) = .ok (new.map value) := by
  induction new generalizing unchanged i with
  | nil =>
    rw [List.length_eq_zero_iff.mp hlen]
    rfl
  | cons c new ih =>
    cases unchanged with
    | nil => cases hlen
    | cons u unchanged =>
      have ih := ih unchanged (i+1) (Nat.succ.inj hlen) (by
        intro j hj hu
        have hnext := hsame (j+1) (Nat.succ_lt_succ hj) (by simpa using hu)
        rw [List.getElem?_cons_succ] at hnext
        rw [hnext, Nat.add_assoc, Nat.add_comm 1 j])
      have hvalue : value c ≠ .toasted := by cases c <;> simp [value]
      rw [sent, List.zipWith_cons_cons, ← sent]
      cases u with
      | false =>
        simp only [Bool.false_eq_true, if_false, mergeToastedFrom, hvalue, ih]
        rfl
      | true =>
        have hold := hsame 0 (Nat.succ_pos _) rfl
        rw [Nat.add_zero] at hold
        simp only [if_true, mergeToastedFrom, List.getElem?_map, ← hold, List.getElem?_cons_zero,
          Option.map_some, ih]
        rfl

theorem merge_full (x : TableOp) (h : Shaped x.rel x.op) :
    mergeToasted (fullEvent x).op = .ok (filledOp x.op) := by
  obtain ⟨rel, op⟩ := x
  cases op with
  | insert row => rfl
  | delete old => rfl
  | update old new unchanged =>
    obtain ⟨_, _, hlen, hsame⟩ := h
    have hmerge := sent_filled old new unchanged 0 hlen (by simpa using hsame)
    simp only [fullEvent, mergeToasted, hmerge]
    rfl

end Source

section Images
variable (overflowChecks : Bool) (rel : Relation)

/-- A row at Feldera: under each column name the JSON image of its value. -/
def image (row : TableRow) : Content := fun f =>
  (List.lookup f ((extractNames rel.fields).zip row)).bind
    (fun c => (toJsonValue overflowChecks (value c) : Outcome Error Value).toOption)

noncomputable def opDelta : SourceOp → Content →₀ ℤ
  | .insert row => Finsupp.single (image overflowChecks rel row) 1
  | .update old new _ => Finsupp.single (image overflowChecks rel new) 1 -
      Finsupp.single (image overflowChecks rel old) 1
  | .delete old => -Finsupp.single (image overflowChecks rel old) 1

noncomputable def images (bag : Multiset TableRow) : Content →₀ ℤ :=
  ofBag (image overflowChecks rel) bag

theorem images_step (bag : Multiset TableRow) (op : SourceOp) (h : Present bag op) :
    images overflowChecks rel (bagStep bag op) =
      images overflowChecks rel bag + opDelta overflowChecks rel op := by
  cases op with
  | insert row =>
    rw [bagStep, images, ofBag_cons, add_comm]
    rfl
  | update old new unchanged =>
    rw [bagStep, images, ofBag_cons, ofBag_erase _ old bag h, opDelta, images]
    exact add_sub_left_comm _ _ _
  | delete old =>
    rw [bagStep, images, ofBag_erase _ old bag h, opDelta, sub_eq_add_neg]
    rfl

theorem lookup_images (names : List String) (row : TableRow) (xs : List Value)
    (h : List.Forall₂ (fun v x => (toJsonValue overflowChecks v : Outcome Error Value) = .ok x)
      (row.map value) xs) (f : String) :
    (List.lookup f (names.zip row)).bind
        (fun c => (toJsonValue overflowChecks (value c) : Outcome Error Value).toOption) =
      List.lookup f (names.zip xs) := by
  induction row generalizing names xs with
  | nil =>
    cases h
    rw [List.zip_nil_right, List.zip_nil_right]
    rfl
  | cons c row ih =>
    cases h with
    | @cons _ x _ xs hx hxs =>
      cases names with
      | nil => rfl
      | cons name names =>
        rw [List.zip_cons_cons, List.zip_cons_cons, List.lookup_cons, List.lookup_cons]
        cases hf : f == name with
        | true =>
          simp only [Option.bind_some, hx]
          rfl
        | false => exact ih names xs hxs

theorem lookup_zip_mem (names : List String) (xs : List Value) (f : String) (x : Value)
    (h : List.lookup f (names.zip xs) = some x) : (f, x) ∈ names.zip xs := by
  induction names generalizing xs with
  | nil => cases h
  | cons name names ih =>
    cases xs with
    | nil => cases h
    | cons y xs =>
      rw [List.zip_cons_cons, List.lookup_cons] at h
      rw [List.zip_cons_cons]
      cases hf : f == name with
      | true =>
        rw [hf] at h
        cases h
        rw [eq_of_beq hf]
        exact List.mem_cons_self
      | false =>
        rw [hf] at h
        exact List.mem_cons_of_mem _ (ih xs h)

theorem lookup_zip_none (names : List String) (xs : List Value) (f : String)
    (hlen : names.length = xs.length) (h : List.lookup f (names.zip xs) = none) : f ∉ names := by
  induction names generalizing xs with
  | nil => exact List.not_mem_nil
  | cons name names ih =>
    cases xs with
    | nil => cases hlen
    | cons y xs =>
      rw [List.zip_cons_cons, List.lookup_cons] at h
      cases hf : f == name with
      | true =>
        rw [hf] at h
        cases h
      | false =>
        rw [hf] at h
        have ih := ih xs (Nat.succ.inj hlen) h
        intro hmem
        rcases List.mem_cons.mp hmem with rfl | hmem
        · simp at hf
        · exact ih hmem

theorem labelled_image (row : TableRow) (obj : FelderaRow) (hlen : row.length = rel.fields.length)
    (h : Labelled overflowChecks (extractNames rel.fields) (row.map value) obj) :
    content obj = image overflowChecks rel row := by
  obtain ⟨xs, hxs, hmem, hnone⟩ := h
  have hsize : (extractNames rel.fields).length = xs.length := by
    rw [← hxs.length_eq, List.length_map, hlen, extractNames, List.length_map]
  funext f
  rw [image, lookup_images overflowChecks _ row xs hxs f]
  cases hf : List.lookup f ((extractNames rel.fields).zip xs) with
  | none => exact hnone f (lookup_zip_none _ xs f hsize hf)
  | some x => exact hmem f x (lookup_zip_mem _ xs f x hf)

end Images

section Convert
variable {overflowChecks : Bool} {fieldNames : FieldNames}

theorem rows_filled (x : TableOp) :
    rows ⟨filledOp x.op, x.rel.relationOid⟩ = (opRows x.op).map (fun row => row.map value) := by
  obtain ⟨rel, op⟩ := x
  cases op <;> rfl

theorem filled_full (x : TableOp)
    (hnames : fieldNames x.rel.relationOid = some (extractNames x.rel.fields))
    (h : Shaped x.rel x.op) : FullRows fieldNames ⟨filledOp x.op, x.rel.relationOid⟩ := by
  have hrows : ∀ row ∈ opRows x.op, row.length = x.rel.fields.length := by
    obtain ⟨rel, op⟩ := x
    cases op with
    | insert row =>
      intro r hr
      rw [List.mem_singleton.mp hr]
      exact h
    | update old new unchanged =>
      intro r hr
      simp only [opRows, List.mem_cons, List.not_mem_nil, or_false] at hr
      rcases hr with rfl | rfl
      · exact h.1
      · exact h.2.1
    | delete old =>
      intro r hr
      rw [List.mem_singleton.mp hr]
      exact h
  intro names hknown row hrow
  rw [rows_filled] at hrow
  obtain ⟨r, hr, rfl⟩ := List.mem_map.mp hrow
  have hsame : names = extractNames x.rel.fields := Option.some.inj (hknown.symm.trans hnames)
  rw [hsame, List.length_map, extractNames, List.length_map]
  exact hrows r hr

theorem converted_delta (x : TableOp)
    (hnames : fieldNames x.rel.relationOid = some (extractNames x.rel.fields))
    (hnodup : (extractNames x.rel.fields).Nodup) (h : Shaped x.rel x.op) (out : List FelderaEvent)
    (hout : convertEvent overflowChecks fieldNames ⟨filledOp x.op, x.rel.relationOid⟩ = .ok out) :
    total (out.map change) = opDelta overflowChecks x.rel x.op := by
  have hcarries := convertEvent_carries _ (filled_full x hnames h) (by
    intro names hknown
    have hsame : names = extractNames x.rel.fields := Option.some.inj (hknown.symm.trans hnames)
    rwa [hsame]) out hout
  obtain ⟨names, hknown, hpart⟩ := hcarries
  have hsame : names = extractNames x.rel.fields := Option.some.inj (hknown.symm.trans hnames)
  subst hsame
  obtain ⟨rel, op⟩ := x
  cases op with
  | insert row =>
    obtain ⟨obj, hobj, rfl⟩ := hpart
    rw [List.map_singleton, change, total_insert, labelled_image _ _ row obj h hobj]
    rfl
  | update old new unchanged =>
    obtain ⟨before, after, hbefore, hafter, rfl⟩ := hpart
    have hsplit : ([.delete before, .insert after] : List FelderaEvent).map change =
        [.delete (content before)] ++ [.insert (content after)] := rfl
    rw [hsplit, total_append, total_insert, total_delete, labelled_image _ _ old before h.1 hbefore,
      labelled_image _ _ new after h.2.1 hafter, opDelta, neg_add_eq_sub]
  | delete old =>
    obtain ⟨obj, hobj, rfl⟩ := hpart
    rw [List.map_singleton, change, total_delete, labelled_image _ _ old obj h hobj]
    rfl

theorem toJsonValue_error {ε : Type} (v : PgValue) (e : Fault ε)
    (h : toJsonValue overflowChecks v = .error e) : e = .panic := by
  cases v with
  | timestamp t =>
    rcases (bind_error_iff _ _ _).mp h with hadd | ⟨_, _, hpure⟩
    · unfold addI64 at hadd
      split_ifs at hadd
      cases hadd
      rfl
    · cases hpure
  | _ => cases h

theorem mapM_error {ε α β : Type} (f : α → Outcome ε β) (hf : ∀ a e, f a = .error e → e = .panic)
    (xs : List α) (e : Fault ε) (h : xs.mapM f = .error e) : e = .panic := by
  induction xs with
  | nil => cases h
  | cons x xs ih =>
    rw [List.mapM_cons] at h
    rcases (bind_error_iff _ _ _).mp h with hx | ⟨y, _, hrest⟩
    · exact hf x e hx
    · rcases (bind_error_iff _ _ _).mp hrest with hxs | ⟨_, _, hpure⟩
      · exact ih hxs
      · cases hpure

theorem convertRow_error (oid : Oid) (names : List String) (hnames : fieldNames oid = some names)
    (values : List PgValue) (e : Fault Error)
    (h : convertRow overflowChecks fieldNames oid values = .error e) : e = .panic := by
  rw [convertRow, hnames] at h
  rcases (bind_error_iff _ _ _).mp h with hmap | ⟨_, _, hpure⟩
  · apply mapM_error _ _ _ _ hmap
    intro pair e hlabel
    rcases (bind_error_iff _ _ _).mp hlabel with hvalue | ⟨_, _, hpure⟩
    · exact toJsonValue_error _ e hvalue
    · cases hpure
  · cases hpure

theorem convertEvent_error (event : ChangeEvent) (names : List String)
    (hnames : fieldNames event.rel = some names) (e : Fault Error)
    (h : convertEvent overflowChecks fieldNames event = .error e) : e = .panic := by
  obtain ⟨op, oid⟩ := event
  cases op with
  | insert row =>
    rcases (bind_error_iff _ _ _).mp h with hrow | ⟨_, _, hpure⟩
    · exact convertRow_error oid names hnames row e hrow
    · cases hpure
  | update old row =>
    rcases (bind_error_iff _ _ _).mp h with hold | ⟨_, _, hrest⟩
    · exact convertRow_error oid names hnames old e hold
    · rcases (bind_error_iff _ _ _).mp hrest with hrow | ⟨_, _, hpure⟩
      · exact convertRow_error oid names hnames row e hrow
      · cases hpure
  | delete old =>
    rcases (bind_error_iff _ _ _).mp h with hold | ⟨_, _, hpure⟩
    · exact convertRow_error oid names hnames old e hold
    · cases hpure

theorem convert_single (event : ChangeEvent) :
    convertOpBatches overflowChecks fieldNames [event] =
      convertEvent overflowChecks fieldNames event := by
  unfold convertOpBatches convertOpBatches
  cases convertEvent overflowChecks fieldNames event with
  | ok out => exact congrArg Except.ok (List.append_nil out)
  | error e => rfl

end Convert

end CDC.FelderaImages
