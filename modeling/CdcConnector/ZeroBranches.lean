import CdcConnector.ZeroSearch

/-!
# The two branches of the zero search

The x86-64 branch with each of its loads checked against the bytes it reads,
and the portable branch for both byte orders. A load outside its slice is a
panic here, and a slice holds at most `isize::MAX` bytes, so no position
overflows. The portable branch counts from the lowest byte of a word, which
is the block's last byte in a big-endian word.
-/

set_option autoImplicit false

namespace CDC.ZeroBranches
open CDC.Fallible CDC.Event CDC.Decoder CDC.RelationDecoder CDC.ZeroSearch

def loadu (memory : Bytes) : Decoded Bytes := slice memory 0 16

def copyFromSlice (buf : Bytes) (len : ℕ) (source : Bytes) : Decoded Bytes := do
  let target ← slice buf 0 len
  if source.length = target.length then return source ++ buf.drop len else panicked

def findNullWordX86 (data : Bytes) : Decoded (Option ℕ) := do
  if data.length < 16 then
    let source ← slice data 0 data.length
    let buf ← copyFromSlice (List.replicate 16 0xff) data.length source
    let chunk ← loadu buf
    return zeroChunk chunk
  else
    let chunk ← loadu data
    match zeroChunk chunk with
    | some i => return some i
    | none => findNullWords data 24

theorem loadu_ok (memory : Bytes) (h : 16 ≤ memory.length) :
    loadu memory = .ok (memory.take 16) :=
  slice_ok memory 0 16 ⟨by omega, h⟩

theorem copyFromSlice_ok (buf source : Bytes) (h : source.length ≤ buf.length) :
    copyFromSlice buf source.length source = .ok (source ++ buf.drop source.length) := by
  have hlen : ((buf.drop 0).take (source.length - 0)).length = source.length := by
    rw [List.drop_zero, Nat.sub_zero, List.length_take_of_le h]
  rw [copyFromSlice, slice_ok buf 0 source.length ⟨by omega, h⟩, ok_bind, if_pos hlen.symm, pure_ok]

theorem findNullWordX86_eq (data : Bytes) : findNullWordX86 data = findNullWord data := by
  unfold findNullWordX86 findNullWord
  by_cases hshort : data.length < 16
  · have hsource : (slice data 0 data.length : Decoded Bytes) = .ok data := by
      rw [slice_ok data 0 data.length ⟨by omega, by omega⟩, List.drop_zero, Nat.sub_zero,
        List.take_length]
    have hcopy := copyFromSlice_ok (List.replicate 16 0xff) data (by
      rw [List.length_replicate]
      omega)
    have hbuf : (data ++ List.replicate (16 - data.length) (0xff : UInt8)).length = 16 := by
      rw [List.length_append, List.length_replicate]
      omega
    rw [List.drop_replicate] at hcopy
    rw [if_pos hshort, if_pos hshort, hsource, ok_bind, hcopy, ok_bind, loadu_ok _ hbuf.ge, ok_bind,
      List.take_of_length_le hbuf.le]
  · rw [if_neg hshort, if_neg hshort, loadu_ok data (by omega)]
    rfl

/-- The result names the first zero byte, or that there is none. -/
def FirstZero (data : Bytes) : Option ℕ → Prop
  | some i => data[i]? = some 0 ∧ ∀ j < i, data[j]? ≠ some 0
  | none => ∀ j : ℕ, data[j]? ≠ some 0

theorem firstZero_none (data : Bytes) : FirstZero data none ↔ scan data = none := by
  rw [scan_none, List.mem_iff_getElem?, not_exists]
  rfl

theorem firstZero_some (data : Bytes) (i : ℕ) : FirstZero data (some i) ↔ scan data = some i := by
  rw [scan, List.findIdx?_eq_some_iff_getElem]
  constructor
  · rintro ⟨hzero, hbefore⟩
    obtain ⟨hlt, hget⟩ := List.getElem?_eq_some_iff.mp hzero
    refine ⟨hlt, by simpa using hget, fun j hj hget' => ?_⟩
    apply hbefore j hj
    rw [List.getElem?_eq_getElem (hj.trans hlt)]
    simpa using hget'
  · rintro ⟨hlt, hget, hbefore⟩
    constructor
    · rw [List.getElem?_eq_getElem hlt]
      simpa using hget
    · intro j hj hzero
      apply hbefore j hj
      rw [List.getElem?_eq_getElem (hj.trans hlt)] at hzero
      simpa using hzero

theorem firstZero_iff (data : Bytes) (r : Option ℕ) : FirstZero data r ↔ r = scan data := by
  cases r with
  | none => rw [firstZero_none, eq_comm]
  | some i => rw [firstZero_some, eq_comm]

/-- Whatever the data, the branch ends, no access leaves its slice, and the
result is that of the plain scan. -/
theorem x86_first_zero (data : Bytes) :
    findNullWordX86 data = .ok (scan data) ∧ findNullWord data = .ok (scan data) ∧
      FirstZero data (scan data) := by
  rw [findNullWordX86_eq]
  exact ⟨findNullWord_scan data, findNullWord_scan data, (firstZero_iff data _).mpr rfl⟩

inductive ByteOrder where
  | little
  | big
  deriving DecidableEq, Repr

def fromNeBytes : ByteOrder → Bytes → BitVec 64
  | .little, bytes => littleEndianWord bytes
  | .big, bytes => BitVec.ofNat 64 (BigEndian.ofBytes bytes)

/-- The word loop of the portable branch and its tail, from position `i`. -/
def findNullBlocks (order : ByteOrder) (data : Bytes) (i : ℕ) : Decoded (Option ℕ) :=
  if _h : i + 8 ≤ data.length then do
    let word ← slice data i (i + 8)
    let mask := zeroByteMask (fromNeBytes order word)
    if mask ≠ 0 then return some (i + trailingZeros 64 mask.toNat / 8)
    else findNullBlocks order data (i + 8)
  else do
    let tail ← sliceFrom data i
    return (tail.findIdx? (· = 0)).map (i + ·)
termination_by data.length - i

def findNullWordPortable (order : ByteOrder) (data : Bytes) : Decoded (Option ℕ) :=
  findNullBlocks order data 0

def lowestFirst : ByteOrder → Bytes → Bytes
  | .little, block => block
  | .big, block => block.reverse

theorem fromNeBytes_lowestFirst (order : ByteOrder) (block : Bytes) :
    fromNeBytes order block = littleEndianWord (lowestFirst order block) := by
  cases order with
  | little => rfl
  | big => rw [fromNeBytes, lowestFirst, littleEndianWord, List.reverse_reverse]

theorem lowestFirst_none (order : ByteOrder) (block : Bytes) :
    scan (lowestFirst order block) = none ↔ (0 : UInt8) ∉ block := by
  rw [scan_none]
  cases order with
  | little => rfl
  | big => rw [lowestFirst, List.mem_reverse]

theorem blockMask_scan (order : ByteOrder) (block : Bytes) (h : block.length = 8) :
    (if zeroByteMask (fromNeBytes order block) ≠ 0 then
      some (trailingZeros 64 (zeroByteMask (fromNeBytes order block)).toNat / 8) else none) =
      scan (lowestFirst order block) := by
  have hlen : (lowestFirst order block).length = 8 := by
    cases order with
    | little => exact h
    | big => rw [lowestFirst, List.length_reverse, h]
  rw [fromNeBytes_lowestFirst]
  exact windowMask_scan _ hlen

def block (data : Bytes) (i : ℕ) : Bytes := (data.drop i).take 8

theorem block_length (data : Bytes) (i : ℕ) (h : i + 8 ≤ data.length) :
    (block data i).length = 8 := by
  rw [block, List.length_take, List.length_drop]
  omega

/-- One block: its zero as the word shows it, or on to the next block. -/
theorem findNullBlocks_block (order : ByteOrder) (data : Bytes) (i : ℕ) (hi : i + 8 ≤ data.length) :
    findNullBlocks order data i = (scan (lowestFirst order (block data i))).elim
      (findNullBlocks order data (i + 8)) (fun k => .ok (some (i + k))) := by
  rw [← blockMask_scan order (block data i) (block_length data i hi), findNullBlocks, dif_pos hi,
    slice_ok data i (i + 8) ⟨by omega, hi⟩, ok_bind, Nat.add_sub_cancel_left]
  show (if zeroByteMask (fromNeBytes order (block data i)) ≠ 0 then _ else _) = _
  split_ifs with hne
  · rfl
  · rfl

theorem findNullBlocks_found (order : ByteOrder) (data : Bytes) (i k : ℕ)
    (hi : i + 8 ≤ data.length) (h : scan (lowestFirst order (block data i)) = some k) :
    findNullBlocks order data i = .ok (some (i + k)) := by
  rw [findNullBlocks_block order data i hi, h]
  rfl

theorem findNullBlocks_next (order : ByteOrder) (data : Bytes) (i : ℕ)
    (hi : i + 8 ≤ data.length) (hzero : (0 : UInt8) ∉ block data i) :
    findNullBlocks order data i = findNullBlocks order data (i + 8) := by
  rw [findNullBlocks_block order data i hi, (lowestFirst_none order _).mpr hzero]
  rfl

theorem findNullBlocks_tail (order : ByteOrder) (data : Bytes) (i : ℕ)
    (hi : ¬ i + 8 ≤ data.length) (hle : i ≤ data.length) :
    findNullBlocks order data i = .ok ((scan (data.drop i)).map (i + ·)) := by
  rw [findNullBlocks, dif_neg hi, sliceFrom_ok data i hle, ok_bind]
  rfl

theorem scan_drop (data : Bytes) (i : ℕ) (hle : i ≤ data.length) (hpre : (0 : UInt8) ∉ data.take i) :
    (scan (data.drop i)).map (i + ·) = scan data := by
  have h := scan_append (data.take i) (data.drop i) hpre
  rw [List.take_append_drop, List.length_take_of_le hle] at h
  exact h.symm

theorem mem_take_block (data : Bytes) (i : ℕ) (b : UInt8) :
    b ∈ data.take (i + 8) ↔ b ∈ data.take i ∨ b ∈ block data i := by
  rw [List.take_add, List.mem_append, block]

/-- In the first whole block with a zero byte, if there is one, the first zero
is as far from the start as the byte the word's lowest zero stands for. -/
def Mirrored (order : ByteOrder) (data : Bytes) (i : ℕ) : Prop :=
  ∀ n : ℕ, i + 8 * n + 8 ≤ data.length → (0 : UInt8) ∉ data.take (i + 8 * n) →
    scan (block data (i + 8 * n)) = scan (lowestFirst order (block data (i + 8 * n)))

theorem mirrored_found (order : ByteOrder) (data : Bytes) (i : ℕ) (hi : i + 8 ≤ data.length)
    (hpre : (0 : UInt8) ∉ data.take i) (hzero : (0 : UInt8) ∈ block data i) :
    Mirrored order data i ↔ scan (block data i) = scan (lowestFirst order (block data i)) := by
  constructor
  · intro h
    exact h 0 hi hpre
  · intro h n hn hbefore
    cases n with
    | zero => exact h
    | succ n =>
      have hmem : (0 : UInt8) ∈ data.take (i + 8) := (mem_take_block data i 0).mpr (Or.inr hzero)
      exact absurd (List.take_subset_take_left data (by omega) hmem) hbefore

theorem mirrored_next (order : ByteOrder) (data : Bytes) (i : ℕ)
    (hzero : (0 : UInt8) ∉ block data i) :
    Mirrored order data i ↔ Mirrored order data (i + 8) := by
  constructor
  · intro h n hn hbefore
    have hstep : i + 8 + 8 * n = i + 8 * (n + 1) := by omega
    rw [hstep] at hn hbefore ⊢
    exact h (n + 1) hn hbefore
  · intro h n hn hbefore
    cases n with
    | zero =>
      show scan (block data i) = scan (lowestFirst order (block data i))
      rw [(scan_none _).mpr hzero, (lowestFirst_none order _).mpr hzero]
    | succ n =>
      have hstep : i + 8 * (n + 1) = i + 8 + 8 * n := by omega
      rw [hstep] at hn hbefore ⊢
      exact h n hn hbefore

theorem findNullBlocks_iff (order : ByteOrder) (data : Bytes) (i : ℕ) (hle : i ≤ data.length)
    (hpre : (0 : UInt8) ∉ data.take i) :
    findNullBlocks order data i = .ok (scan data) ↔ Mirrored order data i := by
  induction hn : data.length - i using Nat.strongRecOn generalizing i with
  | ind n ih =>
    by_cases hi : i + 8 ≤ data.length
    · by_cases hzero : (0 : UInt8) ∈ block data i
      · obtain ⟨k, hk⟩ := Option.ne_none_iff_exists'.mp (fun h => (scan_none _).mp h hzero)
        obtain ⟨l, hl⟩ := Option.ne_none_iff_exists'.mp (fun h =>
          (lowestFirst_none order (block data i)).mp h hzero)
        rw [findNullBlocks_found order data i l hi hl, scan_window data i hi hpre k hk,
          mirrored_found order data i hi hpre hzero, hk, hl]
        simp only [Except.ok.injEq, Option.some.injEq]
        omega
      · have hpre' : (0 : UInt8) ∉ data.take (i + 8) := by
          rw [mem_take_block, not_or]
          exact ⟨hpre, hzero⟩
        rw [findNullBlocks_next order data i hi hzero, mirrored_next order data i hzero]
        exact ih (data.length - (i + 8)) (by omega) (i + 8) hi hpre' rfl
    · rw [findNullBlocks_tail order data i hi hle, scan_drop data i hle hpre]
      constructor
      · intro _ n hn
        omega
      · intro _
        rfl

/-- The branch is right exactly where reading a block from its other end
makes no difference. -/
theorem portable_first_zero_iff (order : ByteOrder) (data : Bytes) :
    (∃ r, findNullWordPortable order data = .ok r ∧ FirstZero data r ∧
      findNullWordX86 data = .ok r) ↔
      order = .little ∨ ∀ n : ℕ, 8 * n + 8 ≤ data.length → (0 : UInt8) ∉ data.take (8 * n) →
        scan (block data (8 * n)) = scan (block data (8 * n)).reverse := by
  have hscan : (∃ r, findNullWordPortable order data = .ok r ∧ FirstZero data r ∧
      findNullWordX86 data = .ok r) ↔ findNullBlocks order data 0 = .ok (scan data) := by
    constructor
    · rintro ⟨r, hr, hfirst, _⟩
      rw [(firstZero_iff data r).mp hfirst] at hr
      exact hr
    · intro h
      refine ⟨scan data, h, (firstZero_iff data _).mpr rfl, ?_⟩
      rw [findNullWordX86_eq, findNullWord_scan]
  rw [hscan, findNullBlocks_iff order data 0 (by omega) (by simp)]
  cases order with
  | little => simp [Mirrored, lowestFirst]
  | big => simp [Mirrored, lowestFirst]

/-- The name "users" with its terminator and two bytes of the next string: the
zero is the third byte from the block's end. -/
theorem portable_big_users :
    findNullWordPortable .big [0x75, 0x73, 0x65, 0x72, 0x73, 0, 0x61, 0x62] = .ok (some 2) ∧
    findNullWordX86 [0x75, 0x73, 0x65, 0x72, 0x73, 0, 0x61, 0x62] = .ok (some 5) ∧
    ¬ FirstZero [0x75, 0x73, 0x65, 0x72, 0x73, 0, 0x61, 0x62] (some 2) ∧
    FirstZero [0x75, 0x73, 0x65, 0x72, 0x73, 0, 0x61, 0x62] (some 5) := by
  refine ⟨findNullBlocks_found .big _ 0 2 (by decide) (by decide), ?_, ?_, ?_⟩
  · rw [findNullWordX86_eq, findNullWord_scan]
    rfl
  · rw [firstZero_some]
    decide
  · rw [firstZero_some]
    decide

end CDC.ZeroBranches
