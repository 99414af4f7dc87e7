import Mathlib.Data.List.Basic

/-!
# Three-valued conditions

A condition is true, false or unknown. A comparison with a null is unknown, a
conjunction is false as soon as one part is, and a row is selected only by a
condition that is true.
-/

set_option autoImplicit false

namespace CDC.Kleene

abbrev Truth := Option Bool

def and : Truth → Truth → Truth
  | some false, _ => some false
  | _, some false => some false
  | some true, some true => some true
  | _, _ => none

def conj : List Truth → Truth
  | [] => some true
  | t::ts => and t (conj ts)

def equal {α : Type} [DecidableEq α] (null x y : α) : Truth :=
  if x = null ∨ y = null then none else some (decide (x = y))

theorem and_true_iff (a b : Truth) : and a b = some true ↔ a = some true ∧ b = some true := by
  cases a with
  | none => cases b with
    | none => simp [and]
    | some b => cases b <;> simp [and]
  | some a => cases b with
    | none => cases a <;> simp [and]
    | some b => cases a <;> cases b <;> simp [and]

theorem equal_true_iff {α : Type} [DecidableEq α] (null x y : α) :
    equal null x y = some true ↔ x = y ∧ y ≠ null := by
  unfold equal
  split_ifs with h
  · simp only [false_iff, not_and, not_not]
    rintro rfl
    exact or_self_iff.mp h
  · rw [Option.some.injEq, decide_eq_true_eq, and_iff_left (not_or.mp h).2]

/-- Comparisons of two lists, entry by entry, are all true exactly for one list
without nulls. -/
theorem equals_true_iff {α : Type} [DecidableEq α] (null : α) (xs ys : List α)
    (hlen : xs.length = ys.length) :
    conj (List.zipWith (equal null) xs ys) = some true ↔ xs = ys ∧ null ∉ ys := by
  induction xs generalizing ys with
  | nil =>
    rw [List.length_nil] at hlen
    rw [List.length_eq_zero_iff.mp hlen.symm]
    simp [conj]
  | cons x xs ih =>
    cases ys with
    | nil => simp at hlen
    | cons y ys =>
      rw [List.zipWith_cons_cons, conj, and_true_iff, equal_true_iff, ih ys (by simpa using hlen),
        List.cons.injEq, List.mem_cons, not_or]
      constructor
      · rintro ⟨⟨hx, hy⟩, hxs, hys⟩
        exact ⟨⟨hx, hxs⟩, Ne.symm hy, hys⟩
      · rintro ⟨⟨hx, hxs⟩, hy, hys⟩
        exact ⟨⟨hx, Ne.symm hy⟩, hxs, hys⟩

end CDC.Kleene
