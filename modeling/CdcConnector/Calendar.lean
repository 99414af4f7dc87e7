import Mathlib.Data.Int.Notation
import Mathlib.Order.Monotone.Basic
import CdcConnector.Fallible

/-!
# Instants of the Gregorian calendar

Days are counted from the first of January 1970, instants in microseconds from
its midnight. The year of a day is the last one that starts by it. A date and
time is an instant in the years the calendar covers; arithmetic that leaves
them panics.
-/

set_option autoImplicit false

namespace CDC.Calendar
open CDC.Fallible

def isLeap (year : ℤ) : Bool := year % 4 = 0 && (year % 100 ≠ 0 || year % 400 = 0)

def startOfYear (year : ℤ) : ℤ :=
  365*(year - 1) + (year - 1)/4 - (year - 1)/100 + (year - 1)/400 - 719162

def yearOf (day : ℤ) : ℤ :=
  let guess := 400*(day + 719162) / 146097 + 1
  if day < startOfYear guess then guess - 1
  else if startOfYear (guess + 1) ≤ day then guess + 1
  else guess

theorem startOfYear_succ (year : ℤ) :
    startOfYear (year + 1) = startOfYear year + if isLeap year then 366 else 365 := by
  simp only [startOfYear, isLeap, Bool.and_eq_true, Bool.or_eq_true, decide_eq_true_eq]
  split_ifs with h
  · omega
  · omega

theorem startOfYear_lt_iff (year year' : ℤ) : startOfYear year < startOfYear year' ↔ year < year' := by
  have hmono : StrictMono startOfYear := by
    apply strictMono_int_of_lt_succ
    intro year
    rw [startOfYear_succ]
    split_ifs
    · omega
    · omega
  exact hmono.lt_iff_lt

theorem yearOf_spec (day : ℤ) :
    startOfYear (yearOf day) ≤ day ∧ day < startOfYear (yearOf day + 1) := by
  simp only [yearOf]
  split_ifs with hearly hlate
  · simp only [startOfYear] at hearly ⊢
    omega
  · simp only [startOfYear] at hlate ⊢
    omega
  · omega

theorem le_yearOf_iff (year day : ℤ) : year ≤ yearOf day ↔ startOfYear year ≤ day := by
  obtain ⟨hstart, hend⟩ := yearOf_spec day
  have hnext := startOfYear_lt_iff year (yearOf day + 1)
  have hlater := startOfYear_lt_iff (yearOf day) year
  constructor
  · intro h
    omega
  · intro h
    omega

def dayMicros : ℤ := 86400000000

/-- The instants of the years -262143 to 262142. -/
def InRange (micros : ℤ) : Prop :=
  -262143 ≤ yearOf (micros / dayMicros) ∧ yearOf (micros / dayMicros) ≤ 262142

theorem inRange_iff (micros : ℤ) :
    InRange micros ↔ -8334601228800000000 ≤ micros ∧ micros ≤ 8210266876799999999 := by
  have hfirst : startOfYear (-262143) = -96465292 := by decide
  have hlast : startOfYear 262143 = 95026237 := by decide
  have hlow := le_yearOf_iff (-262143) (micros / dayMicros)
  have hhigh := le_yearOf_iff 262143 (micros / dayMicros)
  rw [hfirst] at hlow
  rw [hlast] at hhigh
  simp only [InRange, dayMicros] at hlow hhigh ⊢
  omega

instance (micros : ℤ) : Decidable (InRange micros) :=
  decidable_of_iff _ (inRange_iff micros).symm

structure DateTime where
  micros : ℤ
  in_range : InRange micros
  deriving DecidableEq

namespace DateTime

def fromTimestampMicros (micros : ℤ) : Option DateTime :=
  if h : InRange micros then some ⟨micros, h⟩ else none

def add {ε : Type} (dt : DateTime) (micros : ℤ) : Outcome ε DateTime :=
  match fromTimestampMicros (dt.micros + micros) with
  | some sum => .ok sum
  | none => panicked

theorem fromTimestampMicros_in (micros : ℤ) (h : InRange micros) :
    fromTimestampMicros micros = some ⟨micros, h⟩ := by
  rw [fromTimestampMicros, dif_pos h]

theorem fromTimestampMicros_out (micros : ℤ) (h : ¬ InRange micros) :
    fromTimestampMicros micros = none := by
  rw [fromTimestampMicros, dif_neg h]

theorem add_in {ε : Type} (dt : DateTime) (micros : ℤ) (h : InRange (dt.micros + micros)) :
    (dt.add micros : Outcome ε DateTime) = .ok ⟨dt.micros + micros, h⟩ := by
  simp only [add, fromTimestampMicros_in _ h]

theorem add_out {ε : Type} (dt : DateTime) (micros : ℤ) (h : ¬ InRange (dt.micros + micros)) :
    (dt.add micros : Outcome ε DateTime) = panicked := by
  simp only [add, fromTimestampMicros_out _ h]

end DateTime

def monthLengths (leap : Bool) : List ℕ :=
  [31, if leap then 29 else 28, 31, 30, 31, 30, 31, 31, 30, 31, 30, 31]

def monthDay : List ℕ → ℕ → ℕ → ℕ × ℕ
  | [], month, before => (month, before + 1)
  | length::lengths, month, before =>
    if before < length then (month, before + 1) else monthDay lengths (month + 1) (before - length)

def padded (width n : ℕ) : String := String.ofList (List.leftpad width '0' (Nat.toDigits 10 n))

def yearText (year : ℤ) : String :=
  if 0 ≤ year ∧ year ≤ 9999 then padded 4 year.toNat
  else (if year < 0 then "-" else "+") ++ padded 4 year.natAbs

def DateTime.format (dt : DateTime) : String :=
  let day := dt.micros / dayMicros
  let year := yearOf day
  let (month, dayOfMonth) := monthDay (monthLengths (isLeap year)) 1 (day - startOfYear year).toNat
  let micros := (dt.micros % dayMicros).toNat
  let seconds := micros / 1000000
  yearText year ++ "-" ++ padded 2 month ++ "-" ++ padded 2 dayOfMonth ++ " " ++
    padded 2 (seconds / 3600) ++ ":" ++ padded 2 (seconds / 60 % 60) ++ ":" ++
    padded 2 (seconds % 60) ++ "." ++ padded 6 (micros % 1000000)

example : (DateTime.fromTimestampMicros 951782400000001).map DateTime.format =
    some "2000-02-29 00:00:00.000001" := by decide

end CDC.Calendar
