import Mathlib.Tactic.Ring
import Mathlib.Data.List.Basic

/-!
# Fixed-width big-endian numbers

The first byte carries the highest power of 256. Writing and reading a
number that fits its width are inverse to each other, in both directions.
-/

set_option autoImplicit false

namespace CDC.BigEndian

def toBytes : ℕ → ℕ → List UInt8
  | 0, _ => []
  | w+1, n => UInt8.ofNat (n / 256^w) :: toBytes w n

def ofBytes : List UInt8 → ℕ
  | [] => 0
  | b::bs => b.toNat * 256^bs.length + ofBytes bs

@[simp] theorem toBytes_length (w n : ℕ) : (toBytes w n).length = w := by
  induction w with
  | zero => rfl
  | succ w ih => simp [toBytes, ih]

theorem ofBytes_toBytes_mod (w n : ℕ) : ofBytes (toBytes w n) = n % 256^w := by
  induction w with
  | zero => simp [toBytes, ofBytes, Nat.mod_one]
  | succ w ih =>
    have hmod : n % 256^(w+1) = n / 256^w % 256 * 256^w + n % 256^w := by
      rw [pow_succ, Nat.mod_mul, Nat.mul_comm]
      exact Nat.add_comm _ _
    simp [toBytes, ofBytes, ih, hmod]

theorem ofBytes_toBytes (w n : ℕ) (h : n < 256^w) : ofBytes (toBytes w n) = n := by
  rw [ofBytes_toBytes_mod, Nat.mod_eq_of_lt h]

theorem ofBytes_lt (bs : List UInt8) : ofBytes bs < 256^bs.length := by
  induction bs with
  | nil => simp [ofBytes]
  | cons b bs ih =>
    have hb : b.toNat + 1 ≤ 256 := b.toNat_lt
    calc
      ofBytes (b::bs) < b.toNat * 256^bs.length + 256^bs.length := by
        simpa [ofBytes] using ih
      _ = (b.toNat + 1) * 256^bs.length := by ring
      _ ≤ 256 * 256^bs.length := Nat.mul_le_mul_right _ hb
      _ = 256^(b::bs).length := by rw [List.length_cons, pow_succ, Nat.mul_comm]

end CDC.BigEndian
