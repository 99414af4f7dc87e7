import Mathlib.Data.List.Induction
import Mathlib.Logic.Function.Basic

/-!
# Replaying operations

Where the last of two equal operations wins, whatever comes between them, an
operation is of no effect when it comes again later. So a sequence that was
applied may be applied again, and with it any of its operations before it.
-/

set_option autoImplicit false

namespace CDC.Replay

variable {ω σ : Type*}

def applied (fs : List (σ → σ)) (s : σ) : σ := fs.foldl (fun s f => f s) s

/-- Of two equal operations the earlier one is of no effect. -/
structure LastWins (fs : List (σ → σ)) : Prop where
  again : ∀ f ∈ fs, ∀ s, f (f s) = f s
  between : ∀ f ∈ fs, ∀ g ∈ fs, ∀ s, f (g (f s)) = f (g s)

theorem applied_append (fs gs : List (σ → σ)) (s : σ) :
    applied (fs ++ gs) s = applied gs (applied fs s) := List.foldl_append

section Law
variable {fs : List (σ → σ)} (h : LastWins fs)
include h

/-- Any number of operations may come between. -/
theorem last_wins (f : σ → σ) (hf : f ∈ fs) (gs : List (σ → σ)) (hgs : gs ⊆ fs) (s : σ) :
    f (applied gs (f s)) = f (applied gs s) := by
  induction gs using List.reverseRecOn with
  | nil => exact h.again f hf s
  | append_singleton gs g ih =>
    have hg : g ∈ fs := hgs (by simp)
    have ih := ih (fun x hx => hgs (List.mem_append_left _ hx))
    rw [applied_append, applied_append]
    calc
      f (g (applied gs (f s))) = f (g (f (applied gs (f s)))) := (h.between f hf g hg _).symm
      _ = f (g (f (applied gs s))) := by rw [ih]
      _ = f (g (applied gs s)) := h.between f hf g hg _

theorem first_redundant (f : σ → σ) (hf : f ∈ fs) (s : σ) : applied fs (f s) = applied fs s := by
  obtain ⟨before, after, rfl⟩ := List.append_of_mem hf
  have hbefore : before ⊆ before ++ f::after := fun x hx => List.mem_append_left _ hx
  have hlast := last_wins h f hf before hbefore s
  rw [applied_append, applied_append]
  exact congrArg (applied after) hlast

theorem earlier_redundant (gs : List (σ → σ)) (hgs : gs ⊆ fs) (s : σ) :
    applied fs (applied gs s) = applied fs s := by
  induction gs generalizing s with
  | nil => rfl
  | cons g gs ih =>
    have hg : g ∈ fs := hgs (by simp)
    have ih := ih (fun x hx => hgs (List.mem_cons_of_mem g hx)) (g s)
    exact ih.trans (first_redundant h g hg s)

end Law

section Stopping
variable (act : ω → Option (σ → σ))

/-- The operations before the first that cannot be carried out. -/
def carriedOut : List ω → List (σ → σ)
  | [] => []
  | x::xs =>
    match act x with
    | some f => f :: carriedOut xs
    | none => []

theorem carriedOut_mem (xs : List ω) (f : σ → σ) (hf : f ∈ carriedOut act xs) :
    ∃ x ∈ xs, act x = some f := by
  induction xs with
  | nil => cases hf
  | cons x xs ih =>
    unfold carriedOut at hf
    cases hx : act x with
    | none =>
      rw [hx] at hf
      cases hf
    | some g =>
      rw [hx] at hf
      rcases List.mem_cons.mp hf with rfl | hf
      · exact ⟨x, by simp, hx⟩
      · obtain ⟨y, hy, hact⟩ := ih hf
        exact ⟨y, List.mem_cons_of_mem x hy, hact⟩

end Stopping

end CDC.Replay
