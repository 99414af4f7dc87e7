import CdcConnector.SourceTable
import CdcConnector.SinkTable

/-!
# Statements by key

By key, an upsert assigns the columns it sends and a removal leaves nothing,
so the later of two equal statements on a key makes up for the earlier one,
whatever ran between them; statements on other keys do not meet.
-/

set_option autoImplicit false

namespace CDC.KeyedStatements
open CDC.Fallible CDC.Event CDC.SinkStatements CDC.PostgresSink CDC.SinkDatabase CDC.SourceTable
open CDC.SinkTable CDC.KeyedTable

theorem cell_map (columns : List String) (f : String → Cell) (c : String) (hc : c ∈ columns) :
    cell columns (columns.map f) c = f c := by
  have hi : columns.idxOf c < columns.length := List.idxOf_lt_length_of_mem hc
  rw [cell, List.getElem?_map, List.getElem?_eq_getElem hi, List.getElem_idxOf hi]
  rfl

section Statement
variable (columns rows keys assigned : List String) (values : List Cell)

def newRow : TableRow := columns.map (cell rows values)

def changed (r : TableRow) : TableRow :=
  columns.map (fun c => if c ∈ assigned then cell columns (newRow columns rows values) c
    else cell columns r c)

theorem executeUpsert_put (hpresent : Cell.null ∉ keyOf columns keys (newRow columns rows values))
    (t : Finset TableRow) :
    executeUpsert columns rows keys assigned values t =
      put (keyOf columns keys) (newRow columns rows values)
        (changed columns rows assigned values) t := by
  let hit := t.filter (fun r =>
    keyEquals (keyOf columns keys r) (keyOf columns keys (newRow columns rows values)))
  have hhit : hit =
      fiber (keyOf columns keys) (keyOf columns keys (newRow columns rows values)) t := by
    apply Finset.filter_congr
    intro r _
    exact keyEquals_given _ _ hpresent
  have hmiss : t \ hit =
      t.filter (fun r => keyOf columns keys r ≠ keyOf columns keys (newRow columns rows values)) := by
    ext r
    rw [hhit, Finset.mem_sdiff, mem_fiber, Finset.mem_filter]
    tauto
  have hrun : executeUpsert columns rows keys assigned values t =
      if hit = ∅ then insert (newRow columns rows values) t
      else (t \ hit) ∪ hit.image (changed columns rows assigned values) := rfl
  rw [hrun, put, ← hmiss, ← hhit, replaced]
  by_cases hnone : hit = ∅
  · rw [if_pos hnone, if_pos hnone, hnone, Finset.sdiff_empty, Finset.union_comm,
      ← Finset.insert_eq]
  · rw [if_neg hnone, if_neg hnone]

theorem executeDelete_without (hpresent : Cell.null ∉ values) (t : Finset TableRow) :
    executeDelete columns keys values t = without (keyOf columns keys) values t := by
  apply Finset.filter_congr
  intro r _
  rw [keyEquals_given _ _ hpresent]

theorem executeDelete_null (hnull : Cell.null ∈ values) (t : Finset TableRow) :
    executeDelete columns keys values t = t := by
  apply Finset.filter_true_of_mem
  intro r _
  rw [keyEquals_null _ _ hnull]
  exact Bool.false_ne_true

theorem changed_key (hkeys : keys ⊆ columns) (hassigned : ∀ c ∈ assigned, c ∉ keys)
    (r : TableRow) :
    keyOf columns keys (changed columns rows assigned values r) = keyOf columns keys r := by
  apply List.map_congr_left
  intro c hc
  rw [changed, cell_map _ _ c (hkeys hc), if_neg (fun ha => hassigned c ha hc)]

theorem changed_new (r : TableRow)
    (hagree : ∀ c ∈ columns, c ∉ assigned → cell columns r c = cell rows values c) :
    changed columns rows assigned values r = newRow columns rows values := by
  apply List.map_congr_left
  intro c hc
  by_cases ha : c ∈ assigned
  · rw [if_pos ha, newRow, cell_map _ _ c hc]
  · rw [if_neg ha, hagree c hc ha]

theorem changed_over (values' : List Cell) (r : TableRow) :
    changed columns rows assigned values (changed columns rows assigned values' r) =
      changed columns rows assigned values r := by
  apply List.map_congr_left
  intro c hc
  by_cases ha : c ∈ assigned
  · rw [if_pos ha, if_pos ha]
  · rw [if_neg ha, if_neg ha, changed, cell_map _ _ c hc, if_neg ha]

end Statement

section Relation
variable (columns : List String) (rel : Relation)

abbrev assignedOf : List String :=
  (extractFieldsNames rel).filter (fun c => c ∉ extractKeysRel rel)

abbrev newOf (values : List Cell) : TableRow := newRow columns (extractFieldsNames rel) values

abbrev changedOf (values : List Cell) : TableRow → TableRow :=
  changed columns (extractFieldsNames rel) (assignedOf rel) values

/-- What a statement of the relation may do to its table. -/
inductive KeyedEffect : (Finset TableRow → Finset TableRow) → Prop
  | nothing : KeyedEffect id
  | removes (k : List Cell) : KeyedEffect (without (keyOf columns (extractKeysRel rel)) k)
  | puts (values : List Cell) (hlen : values.length = (extractFieldsNames rel).length)
      (hcovers : extractFieldsNames rel ⊆ columns) :
      KeyedEffect (put (keyOf columns (extractKeysRel rel)) (newOf columns rel values)
        (changedOf columns rel values))

theorem keys_subset : extractKeysRel rel ⊆ extractFieldsNames rel := by
  intro c hc
  obtain ⟨f, hf, hkey⟩ := List.mem_filterMap.mp hc
  split at hkey
  · exact List.mem_map.mpr ⟨f, hf, Option.some.inj hkey⟩
  · cases hkey

section Put
variable (hcovers : extractFieldsNames rel ⊆ columns)
include hcovers

theorem newOf_key (values : List Cell) :
    keyOf columns (extractKeysRel rel) (newOf columns rel values) = keyCells rel values := by
  apply List.map_congr_left
  intro c hc
  exact cell_map columns _ c (hcovers (keys_subset rel hc))

theorem changedOf_key (values : List Cell) (r : TableRow) :
    keyOf columns (extractKeysRel rel) (changedOf columns rel values r) =
      keyOf columns (extractKeysRel rel) r := by
  apply changed_key
  · exact fun c hc => hcovers (keys_subset rel hc)
  · exact fun c hc => by simpa using (List.mem_filter.mp hc).2

theorem puts_acts (values : List Cell) :
    ActsAt (keyOf columns (extractKeysRel rel))
      (keyOf columns (extractKeysRel rel) (newOf columns rel values))
      (replaced (newOf columns rel values) (changedOf columns rel values))
      (put (keyOf columns (extractKeysRel rel)) (newOf columns rel values)
        (changedOf columns rel values)) :=
  put_acts _ _ _ (fun r hr => (changedOf_key columns rel hcovers values r).trans hr)

theorem changedOf_new (values values' : List Cell)
    (hlen : values.length = (extractFieldsNames rel).length)
    (hlen' : values'.length = (extractFieldsNames rel).length)
    (hkey : keyOf columns (extractKeysRel rel) (newOf columns rel values) =
      keyOf columns (extractKeysRel rel) (newOf columns rel values')) :
    changedOf columns rel values (newOf columns rel values') = newOf columns rel values := by
  rw [newOf_key columns rel hcovers, newOf_key columns rel hcovers] at hkey
  apply changed_new
  intro c hc ha
  rw [newOf, newRow, cell_map columns _ c hc]
  by_cases hk : c ∈ extractKeysRel rel
  · exact (List.map_inj_left.mp hkey c hk).symm
  · have hnot : c ∉ extractFieldsNames rel :=
      fun hin => ha (List.mem_filter.mpr ⟨hin, by simpa using hk⟩)
    have hidx : (extractFieldsNames rel).idxOf c = (extractFieldsNames rel).length :=
      List.idxOf_eq_length hnot
    rw [cell, cell, hidx, List.getElem?_eq_none (by omega), List.getElem?_eq_none (by omega)]

theorem puts_again (values : List Cell) (hlen : values.length = (extractFieldsNames rel).length)
    (k : List Cell) (t : Finset TableRow) :
    replaced (newOf columns rel values) (changedOf columns rel values)
        (replaced (newOf columns rel values) (changedOf columns rel values)
          (fiber (keyOf columns (extractKeysRel rel)) k t)) =
      replaced (newOf columns rel values) (changedOf columns rel values)
        (fiber (keyOf columns (extractKeysRel rel)) k t) :=
  replaced_again _ (changedOf_new columns rel hcovers values values hlen hlen rfl) t
    (fun r _ => changed_over _ _ _ values values r)

end Put

theorem keyedEffect_again (f : Finset TableRow → Finset TableRow) (h : KeyedEffect columns rel f)
    (t : Finset TableRow) : f (f t) = f t := by
  cases h with
  | nothing => rfl
  | removes k => exact actsAt_again _ (without_acts _ k) (fun _ => rfl) t
  | puts values hlen hcovers =>
    exact actsAt_again _ (puts_acts columns rel hcovers values)
      (puts_again columns rel hcovers values hlen _) t

/-- The later of two equal statements makes up for the earlier one. -/
theorem keyedEffect_between (f g : Finset TableRow → Finset TableRow)
    (hf : KeyedEffect columns rel f) (hg : KeyedEffect columns rel g) (t : Finset TableRow) :
    f (g (f t)) = f (g t) := by
  have hagain := keyedEffect_again columns rel f hf
  cases hf with
  | nothing => rfl
  | removes k =>
    cases hg with
    | nothing => exact hagain t
    | removes k' =>
      exact actsAt_between _ (without_acts _ k) (without_acts _ k') (fun _ => rfl)
        (fun _ _ => rfl) t
    | puts values' hlen' hcovers' =>
      exact actsAt_between _ (without_acts _ k) (puts_acts columns rel hcovers' values')
        (fun _ => rfl) (fun _ _ => rfl) t
  | puts values hlen hcovers =>
    have hself := puts_again columns rel hcovers values hlen
    cases hg with
    | nothing => exact hagain t
    | removes k' =>
      exact actsAt_between _ (puts_acts columns rel hcovers values) (without_acts _ k')
        (hself _) (fun _ _ => rfl) t
    | puts values' hlen' hcovers' =>
      apply actsAt_between _ (puts_acts columns rel hcovers values)
        (puts_acts columns rel hcovers' values') (hself _)
      intro hkey u
      exact replaced_between _ (changedOf_new columns rel hcovers values values hlen hlen rfl)
        (changedOf_new columns rel hcovers values values' hlen hlen' hkey) rfl u
        (fun r _ => changed_over _ _ _ values values' r)
        (fun r _ => changed_over _ _ _ values values r)
        (fun r hr => (changedOf_key columns rel hcovers values r).trans hr)

end Relation

end CDC.KeyedStatements
