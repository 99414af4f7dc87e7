import Mathlib.Data.List.Basic

/-!
# A log written in transactions

Records enter the transaction that is open and become visible when it
commits. A call that fails leaves the log as it was. A transaction can be
opened only when none is open; every other call needs an open one.
-/

set_option autoImplicit false

namespace CDC.TransactionLog

structure Log (ρ : Type) where
  pending : Option (List ρ)
  committed : List (List ρ)
  deriving DecidableEq

variable {ρ ρ' : Type}

namespace Log

def empty : Log ρ := ⟨none, []⟩

def begin (ok : Bool) (l : Log ρ) : Log ρ × Bool :=
  match l.pending, ok with
  | none, true => ({ l with pending := some [] }, true)
  | _, _ => (l, false)

def append (ok : Bool) (r : ρ) (l : Log ρ) : Log ρ × Bool :=
  match l.pending, ok with
  | some buf, true => ({ l with pending := some (buf ++ [r]) }, true)
  | _, _ => (l, false)

def commit (ok : Bool) (l : Log ρ) : Log ρ × Bool :=
  match l.pending, ok with
  | some buf, true => (⟨none, l.committed ++ [buf]⟩, true)
  | _, _ => (l, false)

def abort (ok : Bool) (l : Log ρ) : Log ρ × Bool :=
  match l.pending, ok with
  | some _, true => ({ l with pending := none }, true)
  | _, _ => (l, false)

def map (f : ρ → ρ') (l : Log ρ) : Log ρ' :=
  ⟨l.pending.map (List.map f), l.committed.map (List.map f)⟩

@[simp] theorem begin_none (c : List (List ρ)) (ok : Bool) :
    begin ok ⟨none, c⟩ = if ok then (⟨some [], c⟩, true) else (⟨none, c⟩, false) := by
  cases ok <;> rfl

@[simp] theorem begin_some (buf : List ρ) (c : List (List ρ)) (ok : Bool) :
    begin ok ⟨some buf, c⟩ = (⟨some buf, c⟩, false) := rfl

@[simp] theorem append_none (r : ρ) (c : List (List ρ)) (ok : Bool) :
    append ok r ⟨none, c⟩ = (⟨none, c⟩, false) := rfl

@[simp] theorem append_some (r : ρ) (buf : List ρ) (c : List (List ρ)) (ok : Bool) :
    append ok r ⟨some buf, c⟩ =
      if ok then (⟨some (buf ++ [r]), c⟩, true) else (⟨some buf, c⟩, false) := by
  cases ok <;> rfl

@[simp] theorem commit_none (c : List (List ρ)) (ok : Bool) :
    commit ok ⟨none, c⟩ = (⟨none, c⟩, false) := rfl

@[simp] theorem commit_some (buf : List ρ) (c : List (List ρ)) (ok : Bool) :
    commit ok ⟨some buf, c⟩ =
      if ok then (⟨none, c ++ [buf]⟩, true) else (⟨some buf, c⟩, false) := by
  cases ok <;> rfl

@[simp] theorem abort_none (c : List (List ρ)) (ok : Bool) :
    abort ok ⟨none, c⟩ = (⟨none, c⟩, false) := rfl

@[simp] theorem abort_some (buf : List ρ) (c : List (List ρ)) (ok : Bool) :
    abort ok ⟨some buf, c⟩ =
      if ok then (⟨none, c⟩, true) else (⟨some buf, c⟩, false) := by
  cases ok <;> rfl

theorem begin_map (f : ρ → ρ') (ok : Bool) (l : Log ρ) :
    begin ok (l.map f) = ((begin ok l).1.map f, (begin ok l).2) := by
  obtain ⟨_ | buf, c⟩ := l <;> cases ok <;> rfl

theorem append_map (f : ρ → ρ') (ok : Bool) (r : ρ) (l : Log ρ) :
    append ok (f r) (l.map f) = ((append ok r l).1.map f, (append ok r l).2) := by
  obtain ⟨_ | buf, c⟩ := l <;> cases ok <;> simp [append, map]

theorem commit_map (f : ρ → ρ') (ok : Bool) (l : Log ρ) :
    commit ok (l.map f) = ((commit ok l).1.map f, (commit ok l).2) := by
  obtain ⟨_ | buf, c⟩ := l <;> cases ok <;> simp [commit, map]

theorem abort_map (f : ρ → ρ') (ok : Bool) (l : Log ρ) :
    abort ok (l.map f) = ((abort ok l).1.map f, (abort ok l).2) := by
  obtain ⟨_ | buf, c⟩ := l <;> cases ok <;> rfl

end Log

/-- What a call or a few of them can do to the log, adding at most one record of
`P`. -/
inductive Moves (P : ρ → Prop) : Log ρ → Log ρ → Prop
  | stays (l : Log ρ) : Moves P l l
  | begins (pending : Option (List ρ)) (c : List (List ρ)) : Moves P ⟨pending, c⟩ ⟨some [], c⟩
  | drops (pending : Option (List ρ)) (c : List (List ρ)) : Moves P ⟨pending, c⟩ ⟨none, c⟩
  | adds (buf : List ρ) (c : List (List ρ)) (r : ρ) (h : P r) :
      Moves P ⟨some buf, c⟩ ⟨some (buf ++ [r]), c⟩
  | commits (buf : List ρ) (c : List (List ρ)) (r : ρ) (h : P r) :
      Moves P ⟨some buf, c⟩ ⟨none, c ++ [buf ++ [r]]⟩

end CDC.TransactionLog
