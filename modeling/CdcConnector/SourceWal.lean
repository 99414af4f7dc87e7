import Mathlib.Data.List.Flatten
import CdcConnector.SourceStream

/-!
# The source's write-ahead log

The committed source transactions in commit order. Each ends behind its commit
record, and the next one commits at that end or behind it. Asked for a position,
the server streams the transactions whose commit record is not before it.
-/

set_option autoImplicit false

namespace CDC.SourceWal
open CDC.Event CDC.ProducerModel CDC.SourceStream

structure WalTx where
  rows : List Row
  lsn : UInt64
  endLsn : UInt64
  deriving DecidableEq

structure Wal where
  txs : List WalTx
  ends : ∀ x ∈ txs, x.lsn < x.endLsn
  ordered : txs.Pairwise (fun x y => x.endLsn ≤ y.lsn)

def rowsIn (txs : List WalTx) : List Row := txs.flatMap WalTx.rows

def inWal (t : SourceTx) : WalTx := ⟨t.rows, t.lsn, t.endLsn⟩

theorem rowsIn_inWal (ts : List SourceTx) : rowsIn (ts.map inWal) = ts.flatMap SourceTx.rows := by
  rw [rowsIn, List.flatMap_map]
  rfl

@[simp] theorem rowsIn_append (xs ys : List WalTx) : rowsIn (xs ++ ys) = rowsIn xs ++ rowsIn ys :=
  List.flatMap_append

namespace Wal

def streamFrom (wal : Wal) (position : UInt64) : List WalTx :=
  wal.txs.filter (fun x => position ≤ x.lsn)

def endOf (wal : Wal) (n : ℕ) : UInt64 := ((wal.txs.take n).getLast?.map WalTx.endLsn).getD 0

variable (wal : Wal)

theorem le_endOf (n : ℕ) (x : WalTx) (hx : x ∈ wal.txs.take n) : x.endLsn ≤ wal.endOf n := by
  rcases List.eq_nil_or_concat (wal.txs.take n) with hnil | ⟨before, last, heq⟩
  · rw [hnil] at hx
    cases hx
  · have hlast : wal.endOf n = last.endLsn := by
      rw [endOf, heq, List.concat_eq_append, List.getLast?_concat]
      rfl
    have hordered := wal.ordered.sublist (List.take_sublist n wal.txs)
    have hends := wal.ends last (List.take_subset n wal.txs (by rw [heq]; simp))
    rw [heq, List.concat_eq_append] at hx hordered
    rw [hlast]
    rcases List.mem_append.mp hx with hx | hx
    · have hle := (List.pairwise_append.mp hordered).2.2 x hx last (by simp)
      rw [UInt64.le_iff_toNat_le] at hle ⊢
      rw [UInt64.lt_iff_toNat_lt] at hends
      omega
    · rw [List.mem_singleton.mp hx]
      exact UInt64.le_refl _

theorem endOf_le (n : ℕ) (y : WalTx) (hy : y ∈ wal.txs.drop n) : wal.endOf n ≤ y.lsn := by
  rw [endOf]
  cases h : (wal.txs.take n).getLast? with
  | none => exact UInt64.le_iff_toNat_le.mpr (Nat.zero_le _)
  | some x =>
    have hordered := wal.ordered
    rw [← List.take_append_drop n wal.txs, List.pairwise_append] at hordered
    exact hordered.2.2 x (List.mem_of_getLast? h) y hy

theorem streamFrom_endOf (n : ℕ) : wal.streamFrom (wal.endOf n) = wal.txs.drop n := by
  have hbefore : (wal.txs.take n).filter (fun x => wal.endOf n ≤ x.lsn) = [] := by
    rw [List.filter_eq_nil_iff]
    intro x hx hle
    have hend := wal.le_endOf n x hx
    have hlt := wal.ends x (List.take_subset n wal.txs hx)
    rw [decide_eq_true_eq, UInt64.le_iff_toNat_le] at hle
    rw [UInt64.le_iff_toNat_le] at hend
    rw [UInt64.lt_iff_toNat_lt] at hlt
    omega
  have hbehind : (wal.txs.drop n).filter (fun x => wal.endOf n ≤ x.lsn) = wal.txs.drop n := by
    rw [List.filter_eq_self]
    exact fun y hy => decide_eq_true (wal.endOf_le n y hy)
  calc
    wal.streamFrom (wal.endOf n) =
        (wal.txs.take n ++ wal.txs.drop n).filter (fun x => wal.endOf n ≤ x.lsn) := by
      rw [List.take_append_drop]
      rfl
    _ = wal.txs.drop n := by rw [List.filter_append, hbefore, hbehind, List.nil_append]

theorem upTo_endOf (n : ℕ) : wal.txs.filter (fun x => x.endLsn ≤ wal.endOf n) = wal.txs.take n := by
  have hbefore : (wal.txs.take n).filter (fun x => x.endLsn ≤ wal.endOf n) = wal.txs.take n := by
    rw [List.filter_eq_self]
    exact fun x hx => decide_eq_true (wal.le_endOf n x hx)
  have hbehind : (wal.txs.drop n).filter (fun x => x.endLsn ≤ wal.endOf n) = [] := by
    rw [List.filter_eq_nil_iff]
    intro y hy hle
    have hend := wal.endOf_le n y hy
    have hlt := wal.ends y (List.drop_subset n wal.txs hy)
    rw [decide_eq_true_eq, UInt64.le_iff_toNat_le] at hle
    rw [UInt64.le_iff_toNat_le] at hend
    rw [UInt64.lt_iff_toNat_lt] at hlt
    omega
  calc
    wal.txs.filter (fun x => x.endLsn ≤ wal.endOf n) =
        (wal.txs.take n ++ wal.txs.drop n).filter (fun x => x.endLsn ≤ wal.endOf n) := by
      rw [List.take_append_drop]
    _ = wal.txs.take n := by rw [List.filter_append, hbefore, hbehind, List.append_nil]

theorem beyond_endOf (n : ℕ) : wal.txs.filter (fun x => wal.endOf n < x.endLsn) = wal.txs.drop n := by
  have hbefore : (wal.txs.take n).filter (fun x => wal.endOf n < x.endLsn) = [] := by
    rw [List.filter_eq_nil_iff]
    intro x hx hlt
    have hend := wal.le_endOf n x hx
    rw [decide_eq_true_eq, UInt64.lt_iff_toNat_lt] at hlt
    rw [UInt64.le_iff_toNat_le] at hend
    omega
  have hbehind : (wal.txs.drop n).filter (fun x => wal.endOf n < x.endLsn) = wal.txs.drop n := by
    rw [List.filter_eq_self]
    intro y hy
    have hend := wal.endOf_le n y hy
    have hlt := wal.ends y (List.drop_subset n wal.txs hy)
    rw [decide_eq_true_eq, UInt64.lt_iff_toNat_lt]
    rw [UInt64.le_iff_toNat_le] at hend
    rw [UInt64.lt_iff_toNat_lt] at hlt
    omega
  calc
    wal.txs.filter (fun x => wal.endOf n < x.endLsn) =
        (wal.txs.take n ++ wal.txs.drop n).filter (fun x => wal.endOf n < x.endLsn) := by
      rw [List.take_append_drop]
    _ = wal.txs.drop n := by rw [List.filter_append, hbefore, hbehind, List.nil_append]

theorem filter_drop (position : UInt64) (txs : List WalTx) (hends : ∀ x ∈ txs, x.lsn < x.endLsn)
    (hordered : txs.Pairwise (fun x y => x.endLsn ≤ y.lsn)) :
    ∃ m ≤ txs.length, txs.filter (fun x => position ≤ x.lsn) = txs.drop m := by
  induction txs with
  | nil => exact ⟨0, Nat.le_refl _, rfl⟩
  | cons x txs ih =>
    obtain ⟨hx, hrest⟩ := List.pairwise_cons.mp hordered
    by_cases hle : position ≤ x.lsn
    · refine ⟨0, Nat.zero_le _, ?_⟩
      rw [List.drop_zero, List.filter_eq_self]
      intro y hy
      apply decide_eq_true
      rcases List.mem_cons.mp hy with rfl | hy
      · exact hle
      · have hlt := hends x (by simp)
        have hle' := hx y hy
        rw [UInt64.le_iff_toNat_le] at hle hle' ⊢
        rw [UInt64.lt_iff_toNat_lt] at hlt
        omega
    · obtain ⟨m, hm, heq⟩ := ih (fun y hy => hends y (List.mem_cons_of_mem x hy)) hrest
      refine ⟨m + 1, by rw [List.length_cons]; omega, ?_⟩
      rw [List.filter_cons, if_neg (by simpa using hle), heq, List.drop_succ_cons]

theorem streamFrom_before (position : UInt64) (n : ℕ) (hn : n ≤ wal.txs.length)
    (hle : position ≤ wal.endOf n) :
    ∃ m ≤ n, wal.streamFrom position = wal.txs.drop m := by
  obtain ⟨m, hm, heq⟩ := filter_drop position wal.txs wal.ends wal.ordered
  refine ⟨m, ?_, heq⟩
  have hsub : (wal.txs.drop n).Sublist (wal.streamFrom position) := by
    rw [← wal.streamFrom_endOf n]
    apply List.monotone_filter_right
    intro x hx
    rw [decide_eq_true_eq] at hx ⊢
    exact UInt64.le_trans hle hx
  have hlen := hsub.length_le
  rw [streamFrom, heq, List.length_drop, List.length_drop] at hlen
  omega

end Wal

end CDC.SourceWal
