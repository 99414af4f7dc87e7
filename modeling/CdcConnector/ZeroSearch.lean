import Mathlib.Tactic.Ring
import CdcConnector.RelationDecoder

/-!
# The zero search

Both tests find the first zero byte: the compare mask has one bit for each
zero byte, and the lowest set bit of the word mask lies in the first zero
byte, since no borrow reaches it. The windows of the word loop cover the
data without a gap, so the search is the plain scan.
-/

set_option autoImplicit false

namespace CDC.ZeroSearch
open CDC.Fallible CDC.Event CDC.Decoder CDC.RelationDecoder

def scan (data : Bytes) : Option ℕ := data.findIdx? (· = 0)

theorem scan_cons (b : UInt8) (bs : Bytes) :
    scan (b::bs) = if b = 0 then some 0 else (scan bs).map (· + 1) := by
  simp [scan, List.findIdx?_cons]

theorem scan_none (data : Bytes) : scan data = none ↔ (0 : UInt8) ∉ data := by
  rw [scan, List.findIdx?_eq_none_iff]
  constructor
  · intro h hmem
    simpa using h 0 hmem
  · intro h b hb
    have hne : b ≠ 0 := fun he => h (he ▸ hb)
    simpa using hne

theorem scan_append (pre post : Bytes) (h : (0 : UInt8) ∉ pre) :
    scan (pre ++ post) = (scan post).map (pre.length + ·) := by
  induction pre with
  | nil => simp
  | cons b pre ih =>
    have hb : b ≠ 0 := fun he => h (by simp [he])
    have hpre : (0 : UInt8) ∉ pre := fun hm => h (List.mem_cons_of_mem b hm)
    rw [List.cons_append, scan_cons, if_neg hb, ih hpre, Option.map_map, List.length_cons]
    congr 1
    funext k
    simp only [Function.comp_apply]
    omega

theorem scan_found (pre post : Bytes) (k : ℕ) (h : scan pre = some k) :
    scan (pre ++ post) = some k := by
  induction pre generalizing k with
  | nil => cases h
  | cons b pre ih =>
    rw [scan_cons] at h
    rw [List.cons_append, scan_cons]
    split_ifs at h ⊢ with hb
    · exact h
    · obtain ⟨j, hj, rfl⟩ := Option.map_eq_some_iff.mp h
      rw [ih j hj]
      rfl

theorem trailingZeros_odd (w n : ℕ) : trailingZeros (w+1) (1 + 2 * n) = 0 := by
  have h : (1 + 2 * n) % 2 = 1 := by omega
  rw [trailingZeros, if_pos h]

theorem trailingZeros_even (w n : ℕ) : trailingZeros (w+1) (2 * n) = trailingZeros w n + 1 := by
  have h : ¬ 2 * n % 2 = 1 := by omega
  have hdiv : 2 * n / 2 = n := by omega
  rw [trailingZeros, if_neg h, hdiv]

theorem movemask_scan (w : ℕ) (chunk : Bytes) (hw : chunk.length ≤ w) :
    (if movemask (cmpeqZero chunk) ≠ 0 then some (trailingZeros w (movemask (cmpeqZero chunk)))
      else none) = scan chunk := by
  induction chunk generalizing w with
  | nil => rfl
  | cons b chunk ih =>
    rw [List.length_cons] at hw
    obtain ⟨w, rfl⟩ : ∃ v, w = v + 1 := ⟨w - 1, by omega⟩
    rw [scan_cons, ← ih w (by omega)]
    by_cases hb : b = 0
    · have hmask : movemask (cmpeqZero (b::chunk)) = 1 + 2 * movemask (cmpeqZero chunk) := by
        simp [cmpeqZero, movemask, hb]
      rw [hmask, if_pos hb, if_pos (by omega), trailingZeros_odd]
    · have hmask : movemask (cmpeqZero (b::chunk)) = 2 * movemask (cmpeqZero chunk) := by
        simp [cmpeqZero, movemask, hb]
      rw [hmask, if_neg hb]
      by_cases hzero : movemask (cmpeqZero chunk) = 0
      · simp [hzero]
      · rw [if_pos (by omega), if_pos hzero, trailingZeros_even]
        rfl

theorem zeroChunk_scan (chunk : Bytes) (h : chunk.length ≤ 32) : zeroChunk chunk = scan chunk :=
  movemask_scan 32 chunk h

def ones : ℕ → ℕ
  | 0 => 0
  | n+1 => 1 + 256 * ones n

def wrapSub (n w v : ℕ) : ℕ := if v ≤ w then w - v else w + 256^n - v

def wordMask (n w : ℕ) : ℕ := wrapSub n w (ones n) &&& (256^n - 1 - w) &&& (128 * ones n)

theorem ones_lt (n : ℕ) : ones n < 256^n := by
  induction n with
  | zero => simp [ones]
  | succ n ih =>
    rw [ones, pow_succ]
    omega

theorem wrapSub_step (n b w : ℕ) (hb : 1 ≤ b) (hlt : b < 256) :
    wrapSub (n+1) (b + 256 * w) (ones (n+1)) = (b - 1) + 256 * wrapSub n w (ones n) := by
  have hones := ones_lt n
  simp only [wrapSub, ones, pow_succ]
  by_cases h : ones n ≤ w
  · rw [if_pos h, if_pos (by omega)]
    omega
  · rw [if_neg h, if_neg (by omega)]
    omega

theorem wrapSub_zero (n w : ℕ) :
    wrapSub (n+1) (256 * w) (ones (n+1)) % 256 = 255 := by
  have hones := ones_lt n
  simp only [wrapSub, ones, pow_succ]
  by_cases h : 1 + 256 * ones n ≤ 256 * w
  · rw [if_pos h]
    omega
  · rw [if_neg h]
    omega

theorem and_bytes (x y : ℕ) : (x &&& y) % 256 = (x % 256 &&& y % 256) ∧
    (x &&& y) / 256 = (x / 256 &&& y / 256) :=
  ⟨Nat.and_mod_two_pow (n := 8), Nat.and_div_two_pow (n := 8)⟩

theorem low_byte (b : ℕ) (hb : 1 ≤ b) (hlt : b < 256) : ((b - 1) &&& (255 - b) &&& 128) = 0 := by
  have h : ∀ b < 256, 1 ≤ b → ((b - 1) &&& (255 - b) &&& 128) = 0 := by decide +kernel
  exact h b hlt hb

theorem wordMask_step (n b w : ℕ) (hb : 1 ≤ b) (hlt : b < 256) (hw : w < 256^n) :
    wordMask (n+1) (b + 256 * w) = 256 * wordMask n w := by
  have hcomplement : 256^(n+1) - 1 - (b + 256 * w) = (255 - b) + 256 * (256^n - 1 - w) := by
    rw [pow_succ]
    omega
  have hmod : wordMask (n+1) (b + 256 * w) % 256 = 0 := by
    rw [wordMask, wrapSub_step n b w hb hlt, hcomplement, (and_bytes _ _).1, (and_bytes _ _).1, ones]
    rw [show (b - 1 + 256 * wrapSub n w (ones n)) % 256 = b - 1 by omega,
      show (255 - b + 256 * (256^n - 1 - w)) % 256 = 255 - b by omega,
      show 128 * (1 + 256 * ones n) % 256 = 128 by omega]
    exact low_byte b hb hlt
  have hdiv : wordMask (n+1) (b + 256 * w) / 256 = wordMask n w := by
    rw [wordMask, wrapSub_step n b w hb hlt, hcomplement, (and_bytes _ _).2, (and_bytes _ _).2, ones]
    rw [show (b - 1 + 256 * wrapSub n w (ones n)) / 256 = wrapSub n w (ones n) by omega,
      show (255 - b + 256 * (256^n - 1 - w)) / 256 = 256^n - 1 - w by omega,
      show 128 * (1 + 256 * ones n) / 256 = 128 * ones n by omega]
    rfl
  omega

theorem wordMask_zero (n w : ℕ) (hw : w < 256^n) : wordMask (n+1) (256 * w) % 256 = 128 := by
  have hcomplement : (256^(n+1) - 1 - 256 * w) % 256 = 255 := by
    rw [pow_succ]
    omega
  rw [wordMask, (and_bytes _ _).1, (and_bytes _ _).1, wrapSub_zero, hcomplement, ones,
    show 128 * (1 + 256 * ones n) % 256 = 128 by omega]
  rfl

theorem trailingZeros_shift (k w n : ℕ) : trailingZeros (w+k) (2^k * n) = trailingZeros w n + k := by
  induction k with
  | zero => simp
  | succ k ih =>
    rw [pow_succ', Nat.mul_assoc, ← Nat.add_assoc, trailingZeros_even, ih, Nat.add_assoc]

theorem trailingZeros_high (w n : ℕ) (h : n % 256 = 128) : trailingZeros (w+8) n = 7 := by
  have hn : n = 2^7 * (1 + 2 * (n / 256)) := by omega
  rw [hn, show w + 8 = (w + 1) + 7 by omega, trailingZeros_shift, trailingZeros_odd]

theorem ofBytes_append (xs ys : Bytes) :
    BigEndian.ofBytes (xs ++ ys) = BigEndian.ofBytes xs * 256^ys.length + BigEndian.ofBytes ys := by
  induction xs with
  | nil => simp [BigEndian.ofBytes]
  | cons x xs ih =>
    simp only [List.cons_append, BigEndian.ofBytes, ih, List.length_append]
    ring

theorem ofBytes_reverse (b : UInt8) (bs : Bytes) :
    BigEndian.ofBytes (b::bs).reverse = b.toNat + 256 * BigEndian.ofBytes bs.reverse := by
  rw [List.reverse_cons, ofBytes_append]
  simp [BigEndian.ofBytes]
  ring

theorem wordMask_scan (bs : Bytes) :
    (if wordMask bs.length (BigEndian.ofBytes bs.reverse) ≠ 0 then
      some (trailingZeros (8 * bs.length) (wordMask bs.length (BigEndian.ofBytes bs.reverse)) / 8)
      else none) = scan bs := by
  induction bs with
  | nil => rfl
  | cons b bs ih =>
    have hw : BigEndian.ofBytes bs.reverse < 256^bs.length := by
      simpa using BigEndian.ofBytes_lt bs.reverse
    rw [scan_cons, ← ih, ofBytes_reverse, List.length_cons, Nat.mul_succ]
    by_cases hb : b = 0
    · have hmask : wordMask (bs.length+1) (b.toNat + 256 * BigEndian.ofBytes bs.reverse) % 256 =
          128 := by
        rw [hb]
        simpa using wordMask_zero bs.length _ hw
      rw [if_pos hb, if_pos (by omega), trailingZeros_high _ _ hmask]
    · have hpos : 1 ≤ b.toNat := by
        by_contra hlt
        exact hb (UInt8.toNat_inj.mp (by simpa using hlt))
      rw [wordMask_step bs.length b.toNat _ hpos b.toNat_lt hw, if_neg hb]
      by_cases hzero : wordMask bs.length (BigEndian.ofBytes bs.reverse) = 0
      · simp [hzero]
      · rw [if_pos (by omega), if_pos hzero, show 256 = 2^8 by norm_num, trailingZeros_shift,
          Option.map_some, Nat.add_div_right _ (by norm_num)]

theorem zeroByteMask_toNat (word : BitVec 64) :
    (zeroByteMask word).toNat = wordMask 8 word.toNat := by
  have hones : ones 8 = 0x0101010101010101 := rfl
  have hlt := word.isLt
  have hsub : (word - 0x0101010101010101#64).toNat = wrapSub 8 word.toNat (ones 8) := by
    rw [BitVec.toNat_sub, wrapSub, hones]
    norm_num
    split_ifs <;> omega
  rw [zeroByteMask, BitVec.toNat_and, BitVec.toNat_and, hsub, BitVec.toNat_not, wordMask, hones]
  rfl

theorem windowMask_scan (window : Bytes) (h : window.length = 8) :
    (if zeroByteMask (littleEndianWord window) ≠ 0 then
      some (trailingZeros 64 (zeroByteMask (littleEndianWord window)).toNat / 8) else none) =
      scan window := by
  have hlt : BigEndian.ofBytes window.reverse < 2^64 := by
    have := BigEndian.ofBytes_lt window.reverse
    rw [List.length_reverse, h] at this
    omega
  have hword : (littleEndianWord window).toNat = BigEndian.ofBytes window.reverse := by
    rw [littleEndianWord, BitVec.toNat_ofNat, Nat.mod_eq_of_lt hlt]
  have hzero : zeroByteMask (littleEndianWord window) ≠ 0 ↔
      wordMask 8 (BigEndian.ofBytes window.reverse) ≠ 0 := by
    rw [← hword, ← zeroByteMask_toNat, ne_eq, ne_eq, ← BitVec.toNat_inj]
    rfl
  rw [← wordMask_scan window, h]
  simp only [hzero, zeroByteMask_toNat, hword]

theorem scan_window (data : Bytes) (start : ℕ) (hstart : start + 8 ≤ data.length)
    (hpre : (0 : UInt8) ∉ data.take start) (k : ℕ)
    (h : scan ((data.drop start).take 8) = some k) : scan data = some (start + k) := by
  have hsplit : data = data.take start ++ ((data.drop start).take 8 ++ (data.drop start).drop 8) := by
    rw [List.take_append_drop, List.take_append_drop]
  rw [hsplit, scan_append _ _ hpre, scan_found _ _ k h, Option.map_some,
    List.length_take_of_le (by omega)]

theorem findNullWords_scan (data : Bytes) (i : ℕ) (hlen : 16 ≤ data.length) (hi : 24 ≤ i)
    (hpre : (0 : UInt8) ∉ data.take (i - 8)) : findNullWords data i = .ok (scan data) := by
  induction hn : data.length + 8 - i using Nat.strongRecOn generalizing i with
  | ind n ih =>
    rw [findNullWords]
    by_cases hend : i ≤ data.length + 7
    · have hwindow : ((data.drop (min i data.length - 8)).take 8).length = 8 := by
        rw [List.length_take, List.length_drop]
        omega
      have hstart : (subtract (min i data.length) 8 : Decoded ℕ) = .ok (min i data.length - 8) :=
        subtract_ok _ _ (by omega)
      have hslice : (slice data (min i data.length - 8) (min i data.length) : Decoded Bytes) =
          .ok ((data.drop (min i data.length - 8)).take 8) := by
        rw [slice_ok _ _ _ (by omega), show min i data.length - (min i data.length - 8) = 8 by omega]
      have hmask := windowMask_scan _ hwindow
      have hbefore : (0 : UInt8) ∉ data.take (min i data.length - 8) := by
        intro hmem
        exact hpre (List.take_subset_take_left data (by omega) hmem)
      rw [dif_pos hend]
      simp only [hstart, hslice, ok_bind]
      split_ifs at hmask ⊢ with hne
      · rw [pure_ok, scan_window data _ (by omega) hbefore _ hmask.symm]
      · have hnone := (scan_none _).mp hmask.symm
        apply ih (data.length + 8 - (i + 8)) (by omega) (i + 8) (by omega) _ rfl
        rw [show i + 8 - 8 = min i data.length - 8 + (8 + (i - min i data.length)) by omega,
          List.take_add, List.take_add, List.mem_append, List.mem_append]
        rintro (hmem | hmem | hmem)
        · exact hbefore hmem
        · exact hnone hmem
        · have hlen := List.length_pos_of_mem hmem
          simp only [List.length_take, List.length_drop] at hlen
          omega
    · rw [dif_neg hend, pure_ok]
      have htake : data.take (i - 8) = data := List.take_of_length_le (by omega)
      rw [htake] at hpre
      rw [(scan_none data).mpr hpre]

/-- The search with its short and its long path is the plain scan. -/
theorem findNullWord_scan (data : Bytes) : findNullWord data = .ok (scan data) := by
  unfold findNullWord
  by_cases hshort : data.length < 16
  · rw [if_pos hshort, pure_ok, zeroChunk_scan _ (by simp; omega)]
    cases hscan : scan data with
    | some k => rw [scan_found data _ k hscan]
    | none =>
      rw [scan_append _ _ ((scan_none data).mp hscan)]
      have hpad : scan (List.replicate (16 - data.length) (0xff : UInt8)) = none := by
        rw [scan_none]
        intro hmem
        exact absurd (List.eq_of_mem_replicate hmem) (by decide)
      rw [hpad]
      rfl
  · rw [if_neg hshort, zeroChunk_scan _ (by rw [List.length_take]; omega)]
    have hsplit := List.take_append_drop 16 data
    cases hscan : scan (data.take 16) with
    | some k =>
      have hall := scan_found (data.take 16) (data.drop 16) k hscan
      rw [hsplit] at hall
      rw [hall]
      rfl
    | none =>
      exact findNullWords_scan data 24 (by omega) (le_refl 24) ((scan_none _).mp hscan)

theorem scan_terminated (name rest : Bytes) (h : (0 : UInt8) ∉ name) :
    scan (name ++ 0 :: rest) = some name.length := by
  rw [scan_append _ _ h, scan_cons, if_pos rfl]
  rfl

theorem scan_split (data : Bytes) (k : ℕ) (h : scan data = some k) :
    ∃ name rest, data = name ++ 0 :: rest ∧ (0 : UInt8) ∉ name ∧ k = name.length := by
  induction data generalizing k with
  | nil => cases h
  | cons b data ih =>
    rw [scan_cons] at h
    by_cases hb : b = 0
    · rw [if_pos hb] at h
      cases h
      exact ⟨[], data, by rw [hb, List.nil_append], by simp, rfl⟩
    · rw [if_neg hb] at h
      obtain ⟨j, hj, rfl⟩ := Option.map_eq_some_iff.mp h
      obtain ⟨name, rest, rfl, hname, rfl⟩ := ih j hj
      refine ⟨b::name, rest, rfl, ?_, rfl⟩
      rw [List.mem_cons, not_or]
      exact ⟨fun he => hb he.symm, hname⟩

end CDC.ZeroSearch
