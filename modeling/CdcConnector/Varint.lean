import Mathlib.Tactic.Ring

/-!
# Zig-zag varints

A signed number is folded onto the naturals, small magnitudes first, and the
natural is written seven bits at a time, lowest first, with the high bit set on
every byte but the last. Reading is the inverse of writing, whatever follows.
-/

set_option autoImplicit false

namespace CDC.Varint

def zigzag : ℤ → ℕ
  | .ofNat n => 2 * n
  | .negSucc n => 2 * n + 1

def unzigzag (n : ℕ) : ℤ := if n % 2 = 0 then .ofNat (n / 2) else .negSucc (n / 2)

def varint (n : ℕ) : List UInt8 :=
  if n < 128 then [UInt8.ofNat n] else UInt8.ofNat (n % 128 + 128) :: varint (n / 128)
termination_by n
decreasing_by omega

def readVarint : List UInt8 → Option (ℕ × List UInt8)
  | [] => none
  | b::bs =>
    if b.toNat < 128 then some (b.toNat, bs)
    else (readVarint bs).map (fun r => (b.toNat - 128 + 128 * r.1, r.2))

theorem unzigzag_zigzag (n : ℤ) : unzigzag (zigzag n) = n := by
  cases n with
  | ofNat n =>
    have hmod : 2 * n % 2 = 0 := by omega
    have hdiv : 2 * n / 2 = n := by omega
    rw [zigzag, unzigzag, if_pos hmod, hdiv]
  | negSucc n =>
    have hmod : ¬ (2 * n + 1) % 2 = 0 := by omega
    have hdiv : (2 * n + 1) / 2 = n := by omega
    rw [zigzag, unzigzag, if_neg hmod, hdiv]

theorem readVarint_varint (n : ℕ) (rest : List UInt8) :
    readVarint (varint n ++ rest) = some (n, rest) := by
  induction n using Nat.strongRecOn with
  | ind n ih =>
    rw [varint]
    by_cases hn : n < 128
    · have hb : (UInt8.ofNat n).toNat = n := UInt8.toNat_ofNat_of_lt' (show _ < 256 by omega)
      rw [if_pos hn, List.singleton_append, readVarint, hb, if_pos hn]
    · have hb : (UInt8.ofNat (n % 128 + 128)).toNat = n % 128 + 128 :=
        UInt8.toNat_ofNat_of_lt' (show _ < 256 by omega)
      rw [if_neg hn, List.cons_append, readVarint, hb, if_neg (by omega), ih (n / 128) (by omega),
        Option.map_some]
      have hsum : n % 128 + 128 - 128 + 128 * (n / 128) = n := by omega
      rw [hsum]

def number (n : ℤ) : List UInt8 := varint (zigzag n)

def readNumber (bytes : List UInt8) : Option (ℤ × List UInt8) :=
  (readVarint bytes).map (fun r => (unzigzag r.1, r.2))

theorem readNumber_number (n : ℤ) (rest : List UInt8) :
    readNumber (number n ++ rest) = some (n, rest) := by
  rw [readNumber, number, readVarint_varint, Option.map_some, unzigzag_zigzag]

theorem number_length_pos (n : ℤ) : 0 < (number n).length := by
  rw [number, varint]
  split_ifs <;> simp

end CDC.Varint
