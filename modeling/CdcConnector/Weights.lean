import Mathlib.Algebra.BigOperators.Group.Multiset.Basic
import Mathlib.Algebra.Group.Finsupp
import Mathlib.Algebra.Ring.Int.Defs

/-!
# Weighted collections

A collection gives each element a weight, a change adds one to a weight or takes
one off. Changes add up in any order, and a change that comes twice counts twice.
-/

set_option autoImplicit false

namespace CDC.Weights

variable {α ρ : Type*}

inductive Change (α : Type*) where
  | insert (a : α)
  | delete (a : α)

noncomputable def Change.weight : Change α → α →₀ ℤ
  | insert a => Finsupp.single a 1
  | delete a => -Finsupp.single a 1

noncomputable def total (changes : List (Change α)) : α →₀ ℤ := (changes.map Change.weight).sum

noncomputable def ofBag (image : ρ → α) (bag : Multiset ρ) : α →₀ ℤ :=
  (bag.map (fun r => Finsupp.single (image r) 1)).sum

theorem total_append (xs ys : List (Change α)) : total (xs ++ ys) = total xs + total ys := by
  rw [total, List.map_append, List.sum_append]
  rfl

theorem total_insert (a : α) : total [.insert a] = Finsupp.single a 1 := by
  simp [total, Change.weight]

theorem total_delete (a : α) : total [.delete a] = -Finsupp.single a 1 := by
  simp [total, Change.weight]

theorem ofBag_cons (image : ρ → α) (r : ρ) (bag : Multiset ρ) :
    ofBag image (r ::ₘ bag) = Finsupp.single (image r) 1 + ofBag image bag := by
  rw [ofBag, Multiset.map_cons, Multiset.sum_cons]
  rfl

theorem ofBag_erase [DecidableEq ρ] (image : ρ → α) (r : ρ) (bag : Multiset ρ) (hr : r ∈ bag) :
    ofBag image (bag.erase r) = ofBag image bag - Finsupp.single (image r) 1 := by
  have hcons := ofBag_cons image r (bag.erase r)
  rw [Multiset.cons_erase hr] at hcons
  rw [hcons]
  exact (add_sub_cancel_left _ _).symm

end CDC.Weights
