import CdcConnector.Fallible

/-!
# Relations, values and change events

The vocabulary shared by the reader, the producer and the sinks. A text
value is a Lean string, which is a valid UTF-8 byte sequence by
construction; integers keep the width of the wire. The arena and the owned
versions of an event have one shape and are one type here.
-/

set_option autoImplicit false

namespace CDC.Event

abbrev Bytes := List UInt8

abbrev Oid := UInt32

inductive FieldKind where
  | int4
  | text
  | int8
  | bool
  | timestamp
  deriving DecidableEq, Repr

inductive ReplicaKind where
  | keys
  | row
  deriving DecidableEq, Repr

class FieldAccess (F : Type) where
  getName : F → String
  getKind : F → FieldKind

structure Field where
  isKey : Bool
  name : String
  kind : FieldKind
  deriving DecidableEq, Repr

instance : FieldAccess Field := ⟨Field.name, Field.kind⟩

structure Relation where
  relationOid : Oid
  name : String
  relNamespace : String
  fields : List Field
  replicaId : ReplicaKind
  deriving DecidableEq, Repr

inductive PgValue where
  | null
  | text (s : String)
  | int4 (n : Int32)
  | int8 (n : Int64)
  | bool (b : Bool)
  | timestamp (t : Int64)
  | toasted
  deriving DecidableEq

inductive Op where
  | insert (row : List PgValue)
  | update (old row : List PgValue)
  | delete (old : List PgValue)
  deriving DecidableEq

structure ChangeEvent where
  op : Op
  rel : Oid
  deriving DecidableEq

inductive ToastedOnKeyIdenity where
  | mk
  deriving DecidableEq, Repr

/-- The loop of `merge_toasted` from position `i` of the row on. -/
def mergeToastedFrom (old : List PgValue) : ℕ → List PgValue →
    Except ToastedOnKeyIdenity (List PgValue)
  | _, [] => .ok []
  | i, v::row =>
    if v = .toasted then
      match old[i]? with
      | some o => (mergeToastedFrom old (i+1) row).map (o :: ·)
      | none => .error .mk
    else (mergeToastedFrom old (i+1) row).map (v :: ·)

def mergeToasted : Op → Except ToastedOnKeyIdenity Op
  | .update old row => (mergeToastedFrom old 0 row).map (.update old)
  | op => .ok op

theorem mergeToastedFrom_plain (old : List PgValue) (i : ℕ) (row : List PgValue)
    (h : .toasted ∉ row) : mergeToastedFrom old i row = .ok row := by
  induction row generalizing i with
  | nil => rfl
  | cons v row ih =>
    have hv : v ≠ .toasted := fun e => h (by simp [e])
    have hr : .toasted ∉ row := fun e => h (by simp [e])
    simp [mergeToastedFrom, hv, ih (i+1) hr, Except.map]

theorem mergeToastedFrom_empty (i : ℕ) (row : List PgValue) (h : .toasted ∈ row) :
    mergeToastedFrom [] i row = .error .mk := by
  induction row generalizing i with
  | nil => simp at h
  | cons v row ih =>
    by_cases hv : v = .toasted
    · simp [mergeToastedFrom, hv]
    · have hr : .toasted ∈ row := by
        rcases List.mem_cons.mp h with he | hr
        · exact absurd he.symm hv
        · exact hr
      simp [mergeToastedFrom, hv, ih (i+1) hr, Except.map]

theorem mergeToastedFrom_length (old : List PgValue) (i : ℕ) (row row' : List PgValue)
    (h : mergeToastedFrom old i row = .ok row') : row'.length = row.length := by
  induction row generalizing i row' with
  | nil =>
    cases h
    rfl
  | cons v row ih =>
    have hmap : ∀ o, (mergeToastedFrom old (i+1) row).map (o :: ·) = .ok row' →
        row'.length = (v::row).length := by
      intro o ho
      cases hm : mergeToastedFrom old (i+1) row with
      | error e => rw [hm] at ho; cases ho
      | ok tail =>
        rw [hm] at ho
        cases ho
        rw [List.length_cons, List.length_cons, ih (i+1) tail hm]
    simp only [mergeToastedFrom] at h
    split at h
    · split at h
      · exact hmap _ h
      · cases h
    · exact hmap _ h

end CDC.Event
