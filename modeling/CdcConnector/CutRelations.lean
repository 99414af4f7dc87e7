import CdcConnector.RelationPanics

/-!
# Relation messages cut short

A written message is cut at any byte. Most cuts are reported; not reported are
those one byte into the column count, and those behind a column's name with
ten bytes of the column left. A cut logical column at the end is accepted, the
others are read past the end.
-/

set_option autoImplicit false

namespace CDC.CutRelations
open CDC.Fallible CDC.Event CDC.Decoder CDC.RelationDecoder CDC.RelationMessage
open CDC.RelationPanics CDC.ZeroSearch CDC.TupleSyntax

/-- A cut in the columns that goes unnoticed, `n` bytes into them. -/
def columnCut : List Column → ℕ → Bool
  | [], _ => false
  | c::columns, n =>
    if n < c.bytes.length then decide (10 ≤ n ∧ c.name.utf8ByteSize + 2 ≤ n)
    else columnCut columns (n - c.bytes.length)

def headerLength (nspace name : String) : ℕ := nspace.utf8ByteSize + name.utf8ByteSize + 7

def relationCut (nspace name : String) (columns : List Column) (n : ℕ) : Bool :=
  decide (10 ≤ n ∧ n = headerLength nspace name + 2) ||
    decide (headerLength nspace name + 3 ≤ n) &&
      columnCut columns (n - (headerLength nspace name + 3))

theorem extractString_cut (s : String) (rest : Bytes) (n : ℕ) (h : (0 : UInt8) ∉ utf8Bytes s)
    (hn : n ≤ s.utf8ByteSize) :
    extractString ((utf8Bytes s ++ 0 :: rest).take n) = fail .truncatedInput := by
  rw [← utf8Bytes_length] at hn
  have hfree : (0 : UInt8) ∉ (utf8Bytes s).take n := fun hz => h (List.mem_of_mem_take hz)
  rw [List.take_append_of_le_length hn, extractString, findNullWord_scan, ok_bind,
    (scan_none _).mpr hfree]

section Column
variable (c : Column) (hc : c.WellFormed)
include hc

theorem parseField_cut_name (n : ℕ) (hmin : 10 ≤ n) (hn : n < c.name.utf8ByteSize + 2) :
    parseField (c.bytes.take n) = fail .truncatedInput := by
  obtain ⟨m, rfl⟩ : ∃ m, n = m + 1 := ⟨n - 1, by omega⟩
  have hi : ∀ tail : Bytes, (index (c.flag :: tail) 0 : Decoded UInt8) = .ok c.flag := fun _ => rfl
  have hs : ∀ tail : Bytes, (sliceFrom (c.flag :: tail) 1 : Decoded Bytes) = .ok tail :=
    fun tail => sliceFrom_append [c.flag] tail
  have hlen : ¬ (c.bytes.take (m+1)).length < 10 := by
    rw [List.length_take, c.bytes_length, byteSizeLen]
    omega
  rw [parseField, if_neg hlen, Column.bytes, List.take_succ_cons, hi, ok_bind, hs, ok_bind,
    extractString_cut c.name _ m hc.name_zero_free (by omega)]
  rfl

theorem flag_logical (hflag : ¬ c.flag ≤ 1) : c.flag = 2 ∨ c.flag = 3 := by
  rcases flag_cases c.flag hc.flag_le with h | h | h | h
  · exact absurd (by rw [h]; decide) hflag
  · exact absurd (by rw [h]; decide) hflag
  · exact Or.inl h
  · exact Or.inr h

theorem parseFields_cut_behind (n left : ℕ) (acc : List Field) (hmin : 10 ≤ n)
    (hname : c.name.utf8ByteSize + 2 ≤ n) (hn : n < c.bytes.length) :
    parseFields (c.bytes.take n) (left+1) 0 acc ≠ fail .truncatedInput := by
  obtain ⟨m, rfl⟩ : ∃ m, n = (c.flag :: (utf8Bytes c.name ++ [0])).length + m :=
    ⟨n - (c.name.utf8ByteSize + 2), by simp [utf8Bytes_length]; omega⟩
  have hsplit : c.bytes = (c.flag :: (utf8Bytes c.name ++ [0])) ++
      (BigEndian.toBytes 4 c.typeOid.toNat ++ BigEndian.toBytes 4 c.modifier.toNat) := by
    simp [Column.bytes]
  rw [hsplit, List.take_length_add_append]
  rw [hsplit, List.length_append] at hn
  simp only [List.length_append, BigEndian.toBytes_length] at hn
  generalize hafter : (BigEndian.toBytes 4 c.typeOid.toNat ++
    BigEndian.toBytes 4 c.modifier.toNat).take m = after
  have hshort : after.length < 8 := by
    rw [← hafter, List.length_take]
    omega
  have hlen : 10 ≤ (c.flag :: (utf8Bytes c.name ++ 0 :: after)).length := by
    have hall : after.length = m := by
      rw [← hafter, List.length_take, List.length_append, BigEndian.toBytes_length,
        BigEndian.toBytes_length]
      omega
    simp only [List.length_cons, List.length_append, List.length_nil] at hmin ⊢
    omega
  have hcolumn : (c.flag :: (utf8Bytes c.name ++ [0])) ++ after =
      c.flag :: (utf8Bytes c.name ++ 0 :: after) := by simp
  rw [hcolumn]
  have hover := columnsOverrun_named left hc.name_zero_free hlen
  by_cases hpanic : c.flag ≤ 1 ∨ 0 < left
  · have hp : parseFields (c.flag :: (utf8Bytes c.name ++ 0 :: after)) (left+1) 0 acc = panicked := by
      rw [parseFields_panics_iff, hover]
      by_cases hflag : c.flag ≤ 1
      · exact Or.inl ⟨hflag, Or.inl hshort⟩
      · exact Or.inr ⟨flag_logical c hc hflag, hpanic.resolve_left hflag, Or.inl hshort⟩
    rw [hp]
    simp [panicked, fail]
  · obtain ⟨hflag, hleft⟩ := not_or.mp hpanic
    obtain rfl : left = 0 := by omega
    have hnext : ¬ c.flag = 0 ∧ ¬ c.flag = 1 := not_or.mp (mt (flag_physical_iff c.flag).mpr hflag)
    have hstart := sliceFrom_ok (ε := DecoderError) (c.flag :: (utf8Bytes c.name ++ 0 :: after)) 0
      (by omega)
    rw [parseFields, hstart, ok_bind, List.drop_zero,
      parseField_named c.flag c.name after hc.name_zero_free hlen, if_neg hnext.1, if_neg hnext.2,
      if_pos (flag_logical c hc hflag)]
    simp [parseFields, fail]

theorem parseFields_column_cut (n left : ℕ) (acc : List Field) (hn : n < c.bytes.length) :
    parseFields (c.bytes.take n) (left+1) 0 acc = fail .truncatedInput ↔
      ¬ (10 ≤ n ∧ c.name.utf8ByteSize + 2 ≤ n) := by
  have hstart := sliceFrom_ok (ε := DecoderError) (c.bytes.take n) 0 (by omega)
  constructor
  · intro h hcut
    exact parseFields_cut_behind c hc n left acc hcut.1 hcut.2 hn h
  · intro hcut
    rw [parseFields, hstart, ok_bind, List.drop_zero]
    by_cases hmin : n < 10
    · have hlen : (c.bytes.take n).length < 10 := by
        rw [List.length_take]
        omega
      rw [parseField, if_pos hlen]
      rfl
    · rw [parseField_cut_name c hc n (by omega) (by omega)]
      rfl

end Column

theorem parseFields_cut_iff (columns : List Column) (hcolumns : ∀ c ∈ columns, c.WellFormed)
    (n : ℕ) (hn : n < (columns.flatMap Column.bytes).length) (acc : List Field) :
    parseFields ((columns.flatMap Column.bytes).take n) columns.length 0 acc =
        fail .truncatedInput ↔
      columnCut columns n = false := by
  induction columns generalizing n acc with
  | nil => simp at hn
  | cons c columns ih =>
    have hc : c.WellFormed := hcolumns c (by simp)
    rw [List.flatMap_cons] at hn ⊢
    rw [columnCut]
    by_cases hcut : n < c.bytes.length
    · rw [List.take_append_of_le_length (by omega), List.length_cons,
        parseFields_column_cut c hc n _ acc hcut, if_pos hcut, decide_eq_false_iff_not]
    · obtain ⟨m, rfl⟩ : ∃ m, n = c.bytes.length + m := ⟨n - c.bytes.length, by omega⟩
      rw [List.length_append] at hn
      rw [if_neg hcut, List.take_length_add_append, Nat.add_sub_cancel_left]
      have ih := ih (fun x hx => hcolumns x (List.mem_cons_of_mem c hx)) m (by omega)
      have hstart := sliceFrom_ok (ε := DecoderError)
        (c.bytes ++ (columns.flatMap Column.bytes).take m) 0 (by omega)
      have hnext : ∀ acc, parseFields (c.bytes ++ (columns.flatMap Column.bytes).take m)
          columns.length (0 + byteSizeLen c.name.utf8ByteSize) acc =
          parseFields ((columns.flatMap Column.bytes).take m) columns.length 0 acc := by
        intro acc
        rw [Nat.zero_add, ← c.bytes_length]
        exact parseFields_shift c.bytes _ columns.length 0 acc
      rw [List.length_cons, parseFields, hstart, ok_bind, List.drop_zero, parseField_column c hc,
        ok_bind, Column.result]
      cases c.field with
      | some field =>
        simp only [hnext]
        exact ih _
      | none =>
        simp only [hnext]
        exact ih _

section Header
variable (oid tail : Bytes) (nspace name : String) (hoid : oid.length = 4)
  (hnspace : (0 : UInt8) ∉ utf8Bytes nspace) (hname : (0 : UInt8) ∉ utf8Bytes name)

abbrev named (oid : Bytes) (nspace name : String) (tail : Bytes) : Bytes :=
  tagR :: (oid ++ (utf8Bytes nspace ++ 0 :: (utf8Bytes name ++ 0 :: tail)))

include hoid

theorem named_length : (named oid nspace name tail).length = headerLength nspace name + tail.length := by
  simp only [named, List.length_cons, List.length_append, hoid, utf8Bytes_length, headerLength]
  omega

theorem parse_cut_namespace (hnspace : (0 : UInt8) ∉ utf8Bytes nspace) (n : ℕ) (hmin : 10 ≤ n)
    (hn : n ≤ nspace.utf8ByteSize + 5) :
    RelationDecoder.parse ((named oid nspace name tail).take n) = fail .truncatedInput := by
  obtain ⟨m, rfl⟩ : ∃ m, n = (tagR :: oid).length + m :=
    ⟨n - 5, by rw [List.length_cons, hoid]; omega⟩
  rw [List.length_cons, hoid] at hn hmin
  have hcut : (named oid nspace name tail).take ((tagR :: oid).length + m) =
      tagR :: (oid ++ (utf8Bytes nspace ++ 0 :: (utf8Bytes name ++ 0 :: tail)).take m) := by
    rw [named, ← List.cons_append, List.take_length_add_append, List.cons_append]
  have hlen : ¬ (tagR :: (oid ++ (utf8Bytes nspace ++ 0 :: (utf8Bytes name ++
      0 :: tail)).take m)).length < 10 := by
    simp only [List.length_cons, List.length_append, hoid, List.length_take, utf8Bytes_length]
    omega
  obtain ⟨x, hx, _⟩ := readU32_after_tag tagR oid
    ((utf8Bytes nspace ++ 0 :: (utf8Bytes name ++ 0 :: tail)).take m) hoid
  have hafter := sliceFrom_append (ε := DecoderError) (tagR :: oid)
    ((utf8Bytes nspace ++ 0 :: (utf8Bytes name ++ 0 :: tail)).take m)
  rw [List.length_cons, hoid, List.cons_append] at hafter
  rw [hcut, RelationDecoder.parse, if_neg hlen, hx, ok_bind, hafter, ok_bind,
    extractString_cut nspace _ m hnspace (by omega)]
  rfl

theorem parse_cut_name (hnspace : (0 : UInt8) ∉ utf8Bytes nspace)
    (hname : (0 : UInt8) ∉ utf8Bytes name) (n : ℕ) (hmin : 10 ≤ n)
    (hfirst : nspace.utf8ByteSize + 6 ≤ n) (hn : n < headerLength nspace name) :
    RelationDecoder.parse ((named oid nspace name tail).take n) = fail .truncatedInput := by
  have hpre : (tagR :: (oid ++ (utf8Bytes nspace ++ [0]))).length = nspace.utf8ByteSize + 6 := by
    simp only [List.length_cons, List.length_append, hoid, utf8Bytes_length, List.length_nil]
    omega
  obtain ⟨m, rfl⟩ : ∃ m, n = (tagR :: (oid ++ (utf8Bytes nspace ++ [0]))).length + m :=
    ⟨n - (nspace.utf8ByteSize + 6), by omega⟩
  rw [hpre] at hmin
  have hcut : (named oid nspace name tail).take
      ((tagR :: (oid ++ (utf8Bytes nspace ++ [0]))).length + m) =
      tagR :: (oid ++ (utf8Bytes nspace ++ 0 :: (utf8Bytes name ++ 0 :: tail).take m)) := by
    have hsplit : named oid nspace name tail =
        (tagR :: (oid ++ (utf8Bytes nspace ++ [0]))) ++ (utf8Bytes name ++ 0 :: tail) := by
      simp [named]
    rw [hsplit, List.take_length_add_append]
    simp
  have hlen : ¬ (tagR :: (oid ++ (utf8Bytes nspace ++
      0 :: (utf8Bytes name ++ 0 :: tail).take m))).length < 10 := by
    simp only [List.length_cons, List.length_append, hoid, List.length_take, utf8Bytes_length]
    rw [hpre, headerLength] at hn
    omega
  obtain ⟨x, hx, _⟩ := readU32_after_tag tagR oid
    (utf8Bytes nspace ++ 0 :: (utf8Bytes name ++ 0 :: tail).take m) hoid
  have hafter := sliceFrom_append (ε := DecoderError) (tagR :: oid)
    (utf8Bytes nspace ++ 0 :: (utf8Bytes name ++ 0 :: tail).take m)
  rw [List.length_cons, hoid, List.cons_append] at hafter
  have hbehind : (sliceFrom (tagR :: (oid ++ (utf8Bytes nspace ++
      0 :: (utf8Bytes name ++ 0 :: tail).take m))) (5 + nspace.utf8ByteSize + 1) : Decoded Bytes) =
      .ok ((utf8Bytes name ++ 0 :: tail).take m) := by
    have hs := sliceFrom_append (ε := DecoderError) (tagR :: (oid ++ (utf8Bytes nspace ++ [0])))
      ((utf8Bytes name ++ 0 :: tail).take m)
    have hpos : nspace.utf8ByteSize + 6 = 5 + nspace.utf8ByteSize + 1 := by omega
    rw [hpre, hpos] at hs
    simpa using hs
  rw [hpre, headerLength] at hn
  rw [hcut, RelationDecoder.parse, if_neg hlen, hx, ok_bind, hafter, ok_bind,
    extractString_terminated nspace _ hnspace, ok_bind, hbehind, ok_bind,
    extractString_cut name _ m hname (by omega)]
  rfl

theorem take_tail (m : ℕ) :
    (named oid nspace name tail).take (headerLength nspace name + m) =
      named oid nspace name (tail.take m) := by
  have hsplit : ∀ tail, named oid nspace name tail =
      (tagR :: (oid ++ (utf8Bytes nspace ++ 0 :: (utf8Bytes name ++ [0])))) ++ tail := by
    intro tail
    simp [named]
  have hlen : headerLength nspace name =
      (tagR :: (oid ++ (utf8Bytes nspace ++ 0 :: (utf8Bytes name ++ [0])))).length := by
    simp only [headerLength, List.length_cons, List.length_append, hoid, utf8Bytes_length,
      List.length_nil]
    omega
  rw [hsplit, hsplit, hlen, List.take_length_add_append]

end Header

section Places
variable (nspace name : String) (columns : List Column)

theorem relationCut_short (n : ℕ) (h : n < 10) : relationCut nspace name columns n = false := by
  have hmin : ¬ 10 ≤ n := by omega
  have hshort : ¬ headerLength nspace name + 3 ≤ n := by
    rw [headerLength]
    omega
  simp only [relationCut, hmin, hshort, false_and, decide_false, Bool.false_and, Bool.or_self]

theorem relationCut_header (n : ℕ) (h : n < headerLength nspace name + 2) :
    relationCut nspace name columns n = false := by
  have hne : ¬ n = headerLength nspace name + 2 := by omega
  have hshort : ¬ headerLength nspace name + 3 ≤ n := by omega
  simp only [relationCut, hne, hshort, and_false, decide_false, Bool.false_and, Bool.or_self]

theorem relationCut_count (h : 10 ≤ headerLength nspace name + 2) :
    relationCut nspace name columns (headerLength nspace name + 2) = true := by
  rw [relationCut, Bool.or_eq_true, decide_eq_true_eq]
  exact Or.inl ⟨h, rfl⟩

theorem relationCut_columns (j : ℕ) :
    relationCut nspace name columns (headerLength nspace name + (j + 3)) = columnCut columns j := by
  have hne : ¬ headerLength nspace name + (j + 3) = headerLength nspace name + 2 := by omega
  have hle : headerLength nspace name + 3 ≤ headerLength nspace name + (j + 3) := by omega
  have hsub : headerLength nspace name + (j + 3) - (headerLength nspace name + 3) = j := by omega
  simp only [relationCut, hne, hle, hsub, and_false, decide_false, decide_true, Bool.true_and,
    Bool.false_or]

end Places

def tailBytes (replica : ReplicaKind) (columns : List Column) : Bytes :=
  replicaByte replica :: (BigEndian.toBytes 2 columns.length ++ columns.flatMap Column.bytes)

theorem tailBytes_length (replica : ReplicaKind) (columns : List Column) :
    (tailBytes replica columns).length = (columns.flatMap Column.bytes).length + 3 := by
  simp only [tailBytes, List.length_cons, List.length_append, BigEndian.toBytes_length]
  omega

section Tail
variable (replica : ReplicaKind) (columns : List Column)
  (finish : ReplicaKind → List Field → RelationData)

theorem tail_cut_count :
    (do
      let replicaId ← replicaKind (← index ((tailBytes replica columns).take 2) 0)
      let cols ← readU16 ((tailBytes replica columns).take 2) 1
      let fields ← parseFields ((tailBytes replica columns).take 2) cols 3 []
      return finish replicaId fields : Decoded RelationData) = panicked := by
  rw [tailBytes, List.take_succ_cons]
  have hi : ∀ rest : Bytes, (index (replicaByte replica :: rest) 0 : Decoded UInt8) =
      .ok (replicaByte replica) := fun _ => rfl
  have hout : readU16 (replicaByte replica :: (BigEndian.toBytes 2 columns.length ++
      columns.flatMap Column.bytes).take 1) 1 = panicked := by
    rw [readU16, (slice_panics_iff _ _ _).mpr]
    · rfl
    · rw [List.length_cons, List.length_take]
      omega
  rw [hi, ok_bind, replicaKind_byte, ok_bind, hout]
  rfl

theorem tail_cut_columns (hcount : columns.length < 2^16) (hcolumns : ∀ c ∈ columns, c.WellFormed)
    (j : ℕ) (hj : j < (columns.flatMap Column.bytes).length) :
    (do
      let replicaId ← replicaKind (← index ((tailBytes replica columns).take (j + 3)) 0)
      let cols ← readU16 ((tailBytes replica columns).take (j + 3)) 1
      let fields ← parseFields ((tailBytes replica columns).take (j + 3)) cols 3 []
      return finish replicaId fields : Decoded RelationData) = fail .truncatedInput ↔
      columnCut columns j = false := by
  have hcut : (tailBytes replica columns).take (j + 3) = replicaByte replica ::
      (BigEndian.toBytes 2 columns.length ++ (columns.flatMap Column.bytes).take j) := by
    have hpos : j + 2 = (BigEndian.toBytes 2 columns.length).length + j := by
      rw [BigEndian.toBytes_length]
      omega
    rw [tailBytes, List.take_succ_cons, hpos, List.take_length_add_append]
  have hi : ∀ rest : Bytes, (index (replicaByte replica :: rest) 0 : Decoded UInt8) =
      .ok (replicaByte replica) := fun _ => rfl
  have hread := readU16_at [replicaByte replica] ((columns.flatMap Column.bytes).take j)
    columns.length hcount 1 rfl
  have hfields := parseFields_shift (replicaByte replica :: BigEndian.toBytes 2 columns.length)
    ((columns.flatMap Column.bytes).take j) columns.length 0 []
  rw [List.singleton_append] at hread
  rw [List.length_cons, BigEndian.toBytes_length, List.cons_append] at hfields
  rw [hcut, hi, ok_bind, replicaKind_byte, ok_bind, hread, ok_bind, hfields,
    ← parseFields_cut_iff columns hcolumns j hj []]
  cases parseFields ((columns.flatMap Column.bytes).take j) columns.length 0 [] with
  | ok fields => simp [fail]
  | error e => simp [fail]

end Tail

/-- For every well-formed message, a strict part of it from its start is
reported as truncated exactly where the cut is not one of the unnoticed ones. -/
theorem cut_reported_iff (oid : Oid) (nspace name : String) (replica : ReplicaKind)
    (columns : List Column) (hnspace : (0 : UInt8) ∉ utf8Bytes nspace)
    (hname : (0 : UInt8) ∉ utf8Bytes name) (hcount : columns.length ≤ 65535)
    (hcolumns : ∀ c ∈ columns, c.WellFormed) (n : ℕ)
    (hn : n < (relationBytes oid nspace name replica columns).length) :
    RelationDecoder.parse ((relationBytes oid nspace name replica columns).take n) =
        fail .truncatedInput ↔
      relationCut nspace name columns n = false := by
  have hoid : (BigEndian.toBytes 4 oid.toNat).length = 4 := BigEndian.toBytes_length 4 _
  have hmsg : relationBytes oid nspace name replica columns =
      named (BigEndian.toBytes 4 oid.toNat) nspace name (tailBytes replica columns) := rfl
  rw [hmsg, named_length _ _ _ _ hoid, tailBytes_length] at hn
  rw [hmsg]
  by_cases hmin : n < 10
  · have hlen : ((named (BigEndian.toBytes 4 oid.toNat) nspace name
        (tailBytes replica columns)).take n).length < 10 := by
      rw [List.length_take]
      omega
    rw [RelationDecoder.parse, if_pos hlen, relationCut_short nspace name columns n hmin]
    exact iff_of_true rfl rfl
  by_cases hheader : n < headerLength nspace name
  · rw [relationCut_header nspace name columns n (by omega)]
    refine iff_of_true ?_ rfl
    by_cases hfirst : n ≤ nspace.utf8ByteSize + 5
    · exact parse_cut_namespace _ _ _ _ hoid hnspace n (by omega) hfirst
    · exact parse_cut_name _ _ _ _ hoid hnspace hname n (by omega) (by omega) hheader
  -- the cut is in the tail
  obtain ⟨m, rfl⟩ : ∃ m, n = headerLength nspace name + m := ⟨n - headerLength nspace name, by omega⟩
  have htake : ((tailBytes replica columns).take m).length = m :=
    List.length_take_of_le (by rw [tailBytes_length]; omega)
  have hlong : 10 ≤ (named (BigEndian.toBytes 4 oid.toNat) nspace name
      ((tailBytes replica columns).take m)).length := by
    rw [named_length _ _ _ _ hoid, htake]
    omega
  rw [take_tail _ _ _ _ hoid, parse_header tagR _ ((tailBytes replica columns).take m) nspace name
    hoid hnspace hname hlong, htake]
  by_cases hidentity : m < 2
  · rw [if_pos hidentity, relationCut_header nspace name columns _ (by omega)]
    exact iff_of_true rfl rfl
  rw [if_neg hidentity]
  by_cases hcols : m = 2
  · subst hcols
    rw [tail_cut_count, relationCut_count nspace name columns (by omega)]
    exact iff_of_false (by simp [panicked, fail]) (by simp)
  · obtain ⟨j, rfl⟩ : ∃ j, m = j + 3 := ⟨m - 3, by omega⟩
    rw [tail_cut_columns replica columns _ (by omega) hcolumns j (by omega), relationCut_columns]

/-- A message of one column, cut one byte into its count. -/
theorem cut_count_panics :
    (⟨1, "id", 23, 0⟩ : Column).WellFormed ∧
      relationBytes 1 "p" "u" .keys [⟨1, "id", 23, 0⟩] =
        [0x52, 0,0,0,1, 0x70,0, 0x75,0, 0x64, 0,1, 1, 0x69,0x64,0, 0,0,0,23, 0,0,0,0] ∧
      RelationDecoder.parse ((relationBytes 1 "p" "u" .keys [⟨1, "id", 23, 0⟩]).take 11) =
        panicked := by
  refine ⟨⟨by decide, by decide, fun _ => rfl⟩, by decide, by decide⟩

theorem cut_name_reported :
    RelationDecoder.parse ((relationBytes 1 "p" "u" .keys threeColumns).take 14) =
      fail .truncatedInput :=
  (cut_reported_iff 1 "p" "u" .keys threeColumns (by decide) (by decide) (by decide)
    threeColumns_wellFormed 14 (by decide)).mpr (by decide)

end CDC.CutRelations
