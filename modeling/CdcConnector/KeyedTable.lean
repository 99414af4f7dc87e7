import Mathlib.Data.Finset.Basic
import Mathlib.Data.Finset.Image

/-!
# Tables with a key

A table is a finite set of rows. Removing the rows of a key and putting a row
in the place of its key are the two operations by key; on tables whose rows
have different keys they agree with the operations by row.
-/

set_option autoImplicit false

namespace CDC.KeyedTable

variable {ρ κ : Type*} (key : ρ → κ)

def Keyed (t : Finset ρ) : Prop := ∀ r ∈ t, ∀ r' ∈ t, key r = key r' → r = r'

theorem keyed_subset {t u : Finset ρ} (h : Keyed key t) (hu : u ⊆ t) : Keyed key u :=
  fun r hr r' hr' => h r (hu hr) r' (hu hr')

variable [DecidableEq ρ]

theorem keyed_insert {t : Finset ρ} (r : ρ) (h : Keyed key t) (hr : ∀ r' ∈ t, key r' ≠ key r) :
    Keyed key (insert r t) := by
  intro x hx y hy hxy
  rw [Finset.mem_insert] at hx hy
  rcases hx with rfl | hx <;> rcases hy with rfl | hy
  · rfl
  · exact absurd hxy.symm (hr y hy)
  · exact absurd hxy (hr x hx)
  · exact h x hx y hy hxy

variable [DecidableEq κ]

def without (k : κ) (t : Finset ρ) : Finset ρ := t.filter (fun r => key r ≠ k)

def upsert (r : ρ) (t : Finset ρ) : Finset ρ := insert r (without key (key r) t)

theorem without_eq_erase {t : Finset ρ} (h : Keyed key t) (r : ρ) (hr : r ∈ t) :
    without key (key r) t = t.erase r := by
  ext x
  simp only [without, Finset.mem_filter, Finset.mem_erase]
  constructor
  · rintro ⟨hx, hne⟩
    exact ⟨fun he => hne (he ▸ rfl), hx⟩
  · rintro ⟨hne, hx⟩
    exact ⟨hx, fun he => hne (h x hx r hr he)⟩

theorem upsert_new {t : Finset ρ} (r : ρ) (hr : ∀ r' ∈ t, key r' ≠ key r) :
    upsert key r t = insert r t := by
  rw [upsert, without, Finset.filter_true_of_mem hr]

theorem upsert_same {t : Finset ρ} (h : Keyed key t) (old new : ρ) (hold : old ∈ t)
    (hk : key new = key old) : upsert key new t = insert new (t.erase old) := by
  rw [upsert, hk, without_eq_erase key h old hold]

theorem upsert_keeps_key {t : Finset ρ} (r old : ρ) (hold : old ∈ t) :
    ∃ x ∈ upsert key r t, key x = key old := by
  by_cases hk : key old = key r
  · exact ⟨r, Finset.mem_insert_self _ _, hk.symm⟩
  · exact ⟨old, Finset.mem_insert_of_mem (Finset.mem_filter.mpr ⟨hold, hk⟩), rfl⟩

def fiber (k : κ) (t : Finset ρ) : Finset ρ := t.filter (fun r => key r = k)

omit [DecidableEq ρ] in
theorem mem_fiber (k : κ) (t : Finset ρ) (r : ρ) : r ∈ fiber key k t ↔ r ∈ t ∧ key r = k :=
  Finset.mem_filter

omit [DecidableEq ρ] in
theorem ext_fiber {t u : Finset ρ} (h : ∀ k, fiber key k t = fiber key k u) : t = u := by
  ext r
  have hr := Finset.ext_iff.mp (h (key r)) r
  rwa [mem_fiber, mem_fiber, and_iff_left rfl, and_iff_left rfl] at hr

/-- An operation that sees and changes the rows of one key only. -/
def ActsAt (k : κ) (g f : Finset ρ → Finset ρ) : Prop :=
  ∀ t k', fiber key k' (f t) = if k' = k then g (fiber key k t) else fiber key k' t

omit [DecidableEq ρ] in
/-- Operations on two keys do not meet; on one key their rows decide. -/
theorem actsAt_between {k k' : κ} {g g' f f' : Finset ρ → Finset ρ} (hf : ActsAt key k g f)
    (hf' : ActsAt key k' g' f') (hagain : ∀ t, g (g (fiber key k t)) = g (fiber key k t))
    (hbetween : k = k' → ∀ t, g (g' (g (fiber key k t))) = g (g' (fiber key k t)))
    (t : Finset ρ) : f (f' (f t)) = f (f' t) := by
  apply ext_fiber key
  intro c
  rw [hf, hf, hf' (f t) c, hf' (f t) k, hf' t c, hf' t k, hf t c, hf t k, hf t k']
  by_cases hc : c = k
  · subst hc
    by_cases hk : c = k'
    · subst hk
      simp [hbetween rfl t]
    · simp [hk, hagain t]
  · simp only [hc, if_false]
    by_cases hck : c = k'
    · subst hck
      simp [hc]
    · simp [hck]

omit [DecidableEq ρ] in
theorem actsAt_again {k : κ} {g f : Finset ρ → Finset ρ} (hf : ActsAt key k g f)
    (hagain : ∀ t, g (g (fiber key k t)) = g (fiber key k t)) (t : Finset ρ) : f (f t) = f t := by
  apply ext_fiber key
  intro c
  rw [hf, hf t c, hf t k]
  by_cases hc : c = k
  · simp [hc, hagain t]
  · simp [hc]

omit [DecidableEq ρ] in
theorem without_acts (k : κ) : ActsAt key k (fun _ => ∅) (without key k) := by
  intro t c
  ext r
  rw [mem_fiber, without, Finset.mem_filter]
  by_cases hc : c = k
  · simp only [hc, if_true, Finset.notMem_empty, iff_false]
    tauto
  · rw [if_neg hc, mem_fiber]
    constructor
    · exact fun h => ⟨h.1.1, h.2⟩
    · exact fun h => ⟨⟨h.1, fun hk => hc (h.2.symm.trans hk)⟩, h.2⟩

def replaced (new : ρ) (change : ρ → ρ) (rows : Finset ρ) : Finset ρ :=
  if rows = ∅ then {new} else rows.image change

def put (new : ρ) (change : ρ → ρ) (t : Finset ρ) : Finset ρ :=
  t.filter (fun r => key r ≠ key new) ∪ replaced new change (fiber key (key new) t)

theorem put_acts (new : ρ) (change : ρ → ρ)
    (hchange : ∀ r, key r = key new → key (change r) = key new) :
    ActsAt key (key new) (replaced new change) (put key new change) := by
  have hkey : ∀ t, ∀ r ∈ replaced new change (fiber key (key new) t), key r = key new := by
    intro t r hr
    unfold replaced at hr
    split_ifs at hr with hnone
    · rw [Finset.mem_singleton.mp hr]
    · obtain ⟨x, hx, rfl⟩ := Finset.mem_image.mp hr
      exact hchange x ((mem_fiber key _ _ x).mp hx).2
  intro t c
  ext r
  rw [mem_fiber, put, Finset.mem_union, Finset.mem_filter]
  by_cases hc : c = key new
  · rw [if_pos hc, hc]
    constructor
    · rintro ⟨⟨_, hne⟩ | hr, hk⟩
      · exact absurd hk hne
      · exact hr
    · exact fun hr => ⟨Or.inr hr, hkey t r hr⟩
  · rw [if_neg hc, mem_fiber]
    constructor
    · rintro ⟨⟨hr, _⟩ | hr, hk⟩
      · exact ⟨hr, hk⟩
      · exact absurd (hk.symm.trans (hkey t r hr)) hc
    · exact fun h => ⟨Or.inl ⟨h.1, fun hk => hc (h.2.symm.trans hk)⟩, h.2⟩

section Replaced
variable {new new' : ρ} {change change' : ρ → ρ} {k : κ}

/-- The later change overwrites whatever an earlier one left. -/
theorem replaced_between (hnew : change new = new) (hnew' : change new' = new)
    (hkey : key new = k) (t : Finset ρ)
    (hover : ∀ r, key r = k → change (change' r) = change r)
    (hself : ∀ r, key r = k → change (change r) = change r)
    (hkeep : ∀ r, key r = k → key (change r) = k) :
    replaced new change (replaced new' change' (replaced new change (fiber key k t))) =
      replaced new change (replaced new' change' (fiber key k t)) := by
  unfold replaced
  by_cases hnone : fiber key k t = ∅
  · simp [hnone, hover new hkey, hnew, hnew']
  · simp only [hnone, if_false, Finset.image_eq_empty, Finset.image_image]
    apply Finset.image_congr
    intro r hr
    have hk := ((mem_fiber key k t r).mp hr).2
    simp only [Function.comp_apply]
    rw [hover (change r) (hkeep r hk), hself r hk, hover r hk]

theorem replaced_again (hnew : change new = new) (t : Finset ρ)
    (hself : ∀ r, key r = k → change (change r) = change r) :
    replaced new change (replaced new change (fiber key k t)) =
      replaced new change (fiber key k t) := by
  unfold replaced
  by_cases hnone : fiber key k t = ∅
  · simp [hnone, hnew]
  · simp only [hnone, if_false, Finset.image_eq_empty, Finset.image_image]
    apply Finset.image_congr
    intro r hr
    exact hself r ((mem_fiber key k t r).mp hr).2

end Replaced

end CDC.KeyedTable
