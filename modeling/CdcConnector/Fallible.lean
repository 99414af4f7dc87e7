import Mathlib.Logic.Basic
import Mathlib.Data.List.Basic
import Mathlib.Data.List.Forall2

/-!
# Values, returned errors and panics

A call of fallible code ends with a value, with an error it returns, or with
a panic. The three are kept apart: an error can be matched on by the caller,
a panic unwinds through every caller. Slicing, indexing and subtraction panic
exactly where their preconditions fail.
-/

set_option autoImplicit false

namespace CDC.Fallible

inductive Fault (ε : Type) where
  | panic
  | error (e : ε)
  deriving DecidableEq, Repr

abbrev Outcome (ε α : Type) := Except (Fault ε) α

variable {ε α β : Type}

instance [DecidableEq ε] [DecidableEq α] : DecidableEq (Outcome ε α)
  | .ok a, .ok b => decidable_of_iff (a = b) (by simp)
  | .error a, .error b => decidable_of_iff (a = b) (by simp)
  | .ok _, .error _ => isFalse (by simp)
  | .error _, .ok _ => isFalse (by simp)

def fail (e : ε) : Outcome ε α := .error (.error e)

def panicked : Outcome ε α := .error .panic

@[simp] theorem ok_bind (a : α) (f : α → Outcome ε β) :
    ((.ok a : Outcome ε α) >>= f) = f a := rfl

@[simp] theorem error_bind (x : Fault ε) (f : α → Outcome ε β) :
    ((.error x : Outcome ε α) >>= f) = .error x := rfl

@[simp] theorem pure_ok (a : α) : (pure a : Outcome ε α) = .ok a := rfl

/-- A computation in sequence returns a value exactly when both parts do. -/
theorem bind_ok_iff (x : Outcome ε α) (f : α → Outcome ε β) (b : β) :
    (x >>= f) = .ok b ↔ ∃ a, x = .ok a ∧ f a = .ok b := by
  cases x with
  | ok a => simp
  | error e => simp

@[simp] theorem ok_ne_panicked (a : α) : (.ok a : Outcome ε α) ≠ panicked := by
  simp [panicked]

@[simp] theorem fail_ne_panicked (e : ε) : (fail e : Outcome ε α) ≠ panicked := by
  simp [fail, panicked]

theorem bind_error_iff (x : Outcome ε α) (f : α → Outcome ε β) (e : Fault ε) :
    (x >>= f) = .error e ↔ x = .error e ∨ ∃ a, x = .ok a ∧ f a = .error e := by
  cases x with
  | ok a => simp
  | error y => simp

theorem bind_panics_iff (x : Outcome ε α) (f : α → Outcome ε β) :
    (x >>= f) = panicked ↔ x = panicked ∨ ∃ a, x = .ok a ∧ f a = panicked :=
  bind_error_iff x f .panic

theorem mapM_ok_iff (f : α → Outcome ε β) (xs : List α) (ys : List β) :
    xs.mapM f = .ok ys ↔ List.Forall₂ (fun x y => f x = .ok y) xs ys := by
  induction xs generalizing ys with
  | nil => cases ys <;> simp
  | cons x xs ih =>
    rw [List.mapM_cons, bind_ok_iff]
    simp only [bind_ok_iff, pure_ok, Except.ok.injEq, ih, List.forall₂_cons_left_iff]
    constructor
    · rintro ⟨y, hy, rest, hrest, rfl⟩
      exact ⟨y, rest, hy, hrest, rfl⟩
    · rintro ⟨y, rest, hy, hrest, rfl⟩
      exact ⟨y, hy, rest, hrest, rfl⟩

theorem mapM_total_iff (f : α → Outcome ε β) (xs : List α) :
    (∃ ys, xs.mapM f = .ok ys) ↔ ∀ x ∈ xs, ∃ y, f x = .ok y := by
  induction xs with
  | nil => simp
  | cons x xs ih =>
    rw [List.forall_mem_cons, ← ih]
    simp only [mapM_ok_iff, List.forall₂_cons_left_iff]
    constructor
    · rintro ⟨ys, y, rest, hy, hrest, _⟩
      exact ⟨⟨y, hy⟩, rest, hrest⟩
    · rintro ⟨⟨y, hy⟩, rest, hrest⟩
      exact ⟨y::rest, y, rest, hy, hrest, rfl⟩

def slice (xs : List α) (start stop : ℕ) : Outcome ε (List α) :=
  if start ≤ stop ∧ stop ≤ xs.length then .ok ((xs.drop start).take (stop - start))
  else panicked

def sliceFrom (xs : List α) (start : ℕ) : Outcome ε (List α) :=
  if start ≤ xs.length then .ok (xs.drop start) else panicked

def index (xs : List α) (i : ℕ) : Outcome ε α :=
  match xs[i]? with
  | some x => .ok x
  | none => panicked

def subtract (a b : ℕ) : Outcome ε ℕ :=
  if b ≤ a then .ok (a - b) else panicked

theorem slice_ok (xs : List α) (start stop : ℕ) (h : start ≤ stop ∧ stop ≤ xs.length) :
    (slice xs start stop : Outcome ε (List α)) = .ok ((xs.drop start).take (stop - start)) :=
  if_pos h

theorem slice_length (xs ys : List α) (start stop : ℕ)
    (h : (slice xs start stop : Outcome ε (List α)) = .ok ys) : ys.length = stop - start := by
  unfold slice at h
  split_ifs at h with hb
  · cases h
    simp only [List.length_take, List.length_drop]
    omega
  · cases h

theorem sliceFrom_ok (xs : List α) (start : ℕ) (h : start ≤ xs.length) :
    (sliceFrom xs start : Outcome ε (List α)) = .ok (xs.drop start) :=
  if_pos h

theorem index_ok (xs : List α) (i : ℕ) (h : i < xs.length) :
    (index xs i : Outcome ε α) = .ok xs[i] := by
  simp [index, h]

theorem slice_panics_iff (xs : List α) (start stop : ℕ) :
    (slice xs start stop : Outcome ε (List α)) = panicked ↔ ¬ (start ≤ stop ∧ stop ≤ xs.length) := by
  unfold slice
  split_ifs with h
  · simp [h]
  · simp [h]

theorem sliceFrom_panics_iff (xs : List α) (start : ℕ) :
    (sliceFrom xs start : Outcome ε (List α)) = panicked ↔ xs.length < start := by
  unfold sliceFrom
  split_ifs with h
  · simp [h]
  · simp only [true_iff]
    omega

theorem index_panics (xs : List α) (i : ℕ) (h : xs.length ≤ i) :
    (index xs i : Outcome ε α) = panicked := by
  simp [index, h]

theorem subtract_ok (a b : ℕ) (h : b ≤ a) : (subtract a b : Outcome ε ℕ) = .ok (a - b) :=
  if_pos h

theorem sliceFrom_append (xs ys : List α) :
    (sliceFrom (xs ++ ys) xs.length : Outcome ε (List α)) = .ok ys := by
  rw [sliceFrom_ok _ _ (by simp), List.drop_left]

theorem slice_middle (xs ys zs : List α) (stop : ℕ) (h : stop = xs.length + ys.length) :
    (slice (xs ++ (ys ++ zs)) xs.length stop : Outcome ε (List α)) = .ok ys := by
  subst h
  rw [slice_ok _ _ _ (by simp only [List.length_append]; omega), List.drop_left,
    Nat.add_sub_cancel_left, List.take_left]

theorem slice_shift (xs ys : List α) (start stop : ℕ) :
    (slice (xs ++ ys) (xs.length + start) (xs.length + stop) : Outcome ε (List α)) =
      slice ys start stop := by
  unfold slice
  rw [List.drop_append, List.drop_eq_nil_of_le (by omega), List.nil_append, List.length_append]
  simp only [Nat.add_le_add_iff_left, Nat.add_sub_cancel_left, Nat.add_sub_add_left]

theorem sliceFrom_shift (xs ys : List α) (start : ℕ) :
    (sliceFrom (xs ++ ys) (xs.length + start) : Outcome ε (List α)) = sliceFrom ys start := by
  unfold sliceFrom
  rw [List.drop_append, List.drop_eq_nil_of_le (by omega), List.nil_append, List.length_append]
  simp only [Nat.add_le_add_iff_left, Nat.add_sub_cancel_left]

theorem index_shift (xs ys : List α) (i : ℕ) :
    (index (xs ++ ys) (xs.length + i) : Outcome ε α) = index ys i := by
  rw [index, index, List.getElem?_append_right (by omega), Nat.add_sub_cancel_left]

end CDC.Fallible
