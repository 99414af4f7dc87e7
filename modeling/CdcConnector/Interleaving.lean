import CdcConnector.Replay

/-!
# Interleavings

Two sequences with the same subsequence for each tag are interleavings of the
same streams. Where operations of different tags commute, the order between
the streams does not matter.
-/

set_option autoImplicit false

namespace CDC.Interleaving
open CDC.Replay

variable {α τ σ : Type*} [DecidableEq τ] (tag : α → τ)

/-- The subsequence of one tag. -/
def stream (t : τ) (xs : List α) : List α := xs.filter (fun x => tag x = t)

/-- The same streams. -/
def Interleaved (xs ys : List α) : Prop := ∀ t, stream tag t xs = stream tag t ys

theorem mem_of_interleaved {xs ys : List α} (h : Interleaved tag xs ys) (x : α) (hx : x ∈ xs) :
    x ∈ ys := by
  have hstream : x ∈ stream tag (tag x) xs := List.mem_filter.mpr ⟨hx, by simp⟩
  rw [h (tag x)] at hstream
  exact (List.mem_filter.mp hstream).1

theorem interleaved_symm {xs ys : List α} (h : Interleaved tag xs ys) : Interleaved tag ys xs :=
  fun t => (h t).symm

theorem stream_cons_self (x : α) (xs : List α) :
    stream tag (tag x) (x::xs) = x :: stream tag (tag x) xs := by
  simp [stream]

theorem stream_cons_other (t : τ) (x : α) (xs : List α) (hx : tag x ≠ t) :
    stream tag t (x::xs) = stream tag t xs := by
  simp [stream, hx]

theorem interleaved_swap (x y : α) (xs : List α) (hne : tag x ≠ tag y) :
    Interleaved tag (x::y::xs) (y::x::xs) := by
  intro t
  by_cases hx : tag x = t
  · have hy : tag y ≠ t := fun hy => hne (hx.trans hy.symm)
    simp [stream, hx, hy]
  · simp [stream, List.filter_cons, hx]

theorem interleaved_cons (x : α) (xs ys : List α) (h : Interleaved tag (x::xs) ys) :
    ∃ before after, ys = before ++ x::after ∧ (∀ b ∈ before, tag b ≠ tag x) ∧
      Interleaved tag xs (before ++ after) := by
  have hx := h (tag x)
  rw [stream_cons_self] at hx
  obtain ⟨before, after, rfl, hbefore, _, hafter⟩ := List.filter_eq_cons_iff.mp hx.symm
  have hother : ∀ b ∈ before, tag b ≠ tag x := fun b hb => by simpa using hbefore b hb
  refine ⟨before, after, rfl, hother, fun t => ?_⟩
  have ht := h t
  unfold stream at ht ⊢
  rw [List.filter_append] at ht ⊢
  by_cases htx : tag x = t
  · subst htx
    have hnone : before.filter (fun y => tag y = tag x) = [] :=
      List.filter_eq_nil_iff.mpr (fun b hb => by simpa using hother b hb)
    rw [hnone, List.nil_append]
    exact hafter.symm
  · rw [List.filter_cons_of_neg (by simpa using htx), List.filter_cons_of_neg (by simpa using htx)]
      at ht
    exact ht

theorem filterMap_stream {β : Type*} (g : α → Option β) (t : τ) (xs : List α)
    (h : ∀ x ∈ xs, (g x).isSome = true → tag x = t) :
    (stream tag t xs).filterMap g = xs.filterMap g := by
  induction xs with
  | nil => rfl
  | cons x xs ih =>
    have ih := ih (fun y hy => h y (List.mem_cons_of_mem x hy))
    by_cases hx : tag x = t
    · subst hx
      rw [stream_cons_self, List.filterMap_cons, List.filterMap_cons, ih]
    · have hnone : g x = none := by
        cases hg : g x with
        | none => rfl
        | some y => exact absurd (h x (by simp) (by rw [hg]; rfl)) hx
      rw [stream_cons_other tag t x xs hx, List.filterMap_cons, hnone]
      exact ih

theorem interleaved_filterMap {β : Type*} (g : α → Option β) (xs ys : List α)
    (h : Interleaved tag xs ys)
    (hone : ∀ x ∈ xs, ∀ y ∈ xs, (g x).isSome = true → (g y).isSome = true → tag x = tag y) :
    xs.filterMap g = ys.filterMap g := by
  have hmem := mem_of_interleaved tag (interleaved_symm tag h)
  by_cases hany : ∃ x ∈ xs, (g x).isSome = true
  · obtain ⟨x, hx, hsome⟩ := hany
    have hxs : ∀ y ∈ xs, (g y).isSome = true → tag y = tag x :=
      fun y hy hy' => hone y hy x hx hy' hsome
    rw [← filterMap_stream tag g (tag x) xs hxs, h (tag x),
      filterMap_stream tag g (tag x) ys (fun y hy => hxs y (hmem y hy))]
  · have hnone : ∀ x ∈ xs, g x = none := by
      intro x hx
      by_contra hne
      exact hany ⟨x, hx, Option.isSome_iff_ne_none.mpr hne⟩
    rw [List.filterMap_eq_nil_iff.mpr hnone,
      List.filterMap_eq_nil_iff.mpr (fun y hy => hnone y (hmem y hy))]

theorem stream_map {β : Type*} (f : β → α) (t : τ) (xs : List β) :
    stream tag t (xs.map f) = (stream (fun x => tag (f x)) t xs).map f := List.filter_map

variable (act : α → σ → σ)

theorem applied_past (f : σ → σ) (xs : List α) (hcomm : ∀ x ∈ xs, ∀ s, f (act x s) = act x (f s))
    (s : σ) : f (applied (xs.map act) s) = applied (xs.map act) (f s) := by
  induction xs generalizing s with
  | nil => rfl
  | cons x xs ih =>
    have hx := hcomm x (by simp) s
    have ih := ih (fun y hy => hcomm y (List.mem_cons_of_mem x hy)) (act x s)
    rw [hx] at ih
    exact ih

theorem applied_interleaved (xs ys : List α)
    (hcomm : ∀ x ∈ xs, ∀ y ∈ xs, tag x ≠ tag y → ∀ s, act x (act y s) = act y (act x s))
    (h : Interleaved tag xs ys) (s : σ) : applied (xs.map act) s = applied (ys.map act) s := by
  induction xs generalizing ys s with
  | nil =>
    have hys : ys = [] := by
      apply List.eq_nil_iff_forall_not_mem.mpr
      intro y hy
      cases mem_of_interleaved tag (interleaved_symm tag h) y hy
    rw [hys]
  | cons x xs ih =>
    obtain ⟨before, after, rfl, hother, hrest⟩ := interleaved_cons tag x xs ys h
    have hmem : ∀ b ∈ before, b ∈ x::xs := fun b hb =>
      mem_of_interleaved tag (interleaved_symm tag h) b (List.mem_append_left _ hb)
    have hpast := applied_past act (act x) before
      (fun b hb t => hcomm x (by simp) b (hmem b hb) (hother b hb).symm t) s
    have ih := ih (before ++ after)
      (fun y hy z hz => hcomm y (List.mem_cons_of_mem x hy) z (List.mem_cons_of_mem x hz))
      hrest (act x s)
    calc
      applied ((x::xs).map act) s = applied (xs.map act) (act x s) := rfl
      _ = applied ((before ++ after).map act) (act x s) := ih
      _ = applied (after.map act) (applied (before.map act) (act x s)) := by
        rw [List.map_append, applied_append]
      _ = applied (after.map act) (act x (applied (before.map act) s)) := by rw [hpast]
      _ = applied ((before ++ x::after).map act) s := by
        rw [List.map_append, applied_append]
        rfl

end CDC.Interleaving
