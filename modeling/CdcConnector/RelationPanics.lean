import CdcConnector.RelationMessage
import CdcConnector.TuplePanics

/-!
# Where the relation decoder panics

A message is checked for the first byte of its column count only, and a column
for ten bytes before the length of its name is known. What is cut behind these
checks is read past its end.
-/

set_option autoImplicit false

namespace CDC.RelationPanics
open CDC.Fallible CDC.Event CDC.Decoder CDC.RelationDecoder CDC.RelationMessage
open CDC.ZeroSearch CDC.TuplePanics CDC.TupleSyntax

def supportedOids : List ℕ := [16, 20, 23, 25, 1114]

/-- The next column is cut behind its name, or it is read and a later one is
cut. A logical column is cut only where another one follows it. -/
def ColumnsOverrun : ℕ → Bytes → Prop
  | 0, _ => False
  | n+1, input =>
    10 ≤ input.length ∧ ∃ flag name after, input = flag :: (utf8Bytes name ++ 0 :: after) ∧
      (0 : UInt8) ∉ utf8Bytes name ∧
      ((flag ≤ 1 ∧ (after.length < 8 ∨
          (BigEndian.ofBytes (after.take 4) ∈ supportedOids ∧ ColumnsOverrun n (after.drop 8)))) ∨
        ((flag = 2 ∨ flag = 3) ∧ 0 < n ∧ (after.length < 8 ∨ ColumnsOverrun n (after.drop 8))))

/-- The identity is known, and the message ends inside the column count or a
column is cut. -/
def RelationOverruns (data : Bytes) : Prop :=
  10 ≤ data.length ∧ ∃ tag oid nspace name replica tail,
    data = tag :: (oid ++ (utf8Bytes nspace ++ 0 :: (utf8Bytes name ++ 0 :: replica :: tail))) ∧
      oid.length = 4 ∧ (0 : UInt8) ∉ utf8Bytes nspace ∧ (0 : UInt8) ∉ utf8Bytes name ∧
      (replica = tagDefault ∨ replica = tagFull) ∧
      (tail.length = 1 ∨ ∃ count columns, tail = count ++ columns ∧ count.length = 2 ∧
        ColumnsOverrun (BigEndian.ofBytes count) columns)

theorem extractString_total (data : Bytes) : extractString data ≠ panicked := by
  rw [extractString, findNullWord_scan, ok_bind]
  cases hscan : scan data with
  | none => simp
  | some k =>
    obtain ⟨name, rest, rfl, _, rfl⟩ := scan_split data k hscan
    have hslice := slice_middle (ε := DecoderError) [] name (0 :: rest) name.length (by simp)
    simp only [List.nil_append, List.length_nil] at hslice
    simp only [hslice, ok_bind]
    split_ifs
    · simp
    · exact fromUtf8_total name

theorem kindFromOidMod_total (tOid tMod : UInt32) : kindFromOidMod tOid tMod ≠ panicked := by
  unfold kindFromOidMod
  split_ifs <;> simp

theorem kindFromOidMod_ok_iff (tOid tMod : UInt32) :
    (∃ kind, kindFromOidMod tOid tMod = .ok kind) ↔ tOid.toNat ∈ supportedOids := by
  simp only [supportedOids, List.mem_cons, List.not_mem_nil, or_false]
  unfold kindFromOidMod
  split_ifs with h16 h20 h23 h25 h1114
  · simp [h16]
  · simp [h20]
  · simp [h23]
  · simp [h25]
  · simp [h1114]
  · simp only [← UInt32.toNat_inj, UInt32.toNat_ofNat] at h16 h20 h23 h25 h1114
    have hnone : ∀ kind : FieldKind, fail (.invalidOid tOid) ≠ (.ok kind : Decoded FieldKind) := by
      simp [fail]
    simp only [hnone, exists_false, false_iff]
    omega

theorem readU32_panics_iff (data : Bytes) (pos : ℕ) :
    readU32 data pos = panicked ↔ data.length < pos + 4 := by
  simp only [readU32, bind_panics_iff, slice_panics_iff, pure_ok, ok_ne_panicked, and_false,
    exists_false, or_false]
  omega

theorem readU32_front (data : Bytes) (h : 4 ≤ data.length) :
    ∃ x, readU32 data 0 = .ok x ∧ x.toNat = BigEndian.ofBytes (data.take 4) := by
  have hlt := BigEndian.ofBytes_lt (data.take 4)
  rw [List.length_take_of_le h] at hlt
  refine ⟨UInt32.ofNat (BigEndian.ofBytes (data.take 4)), ?_, UInt32.toNat_ofNat_of_lt' hlt⟩
  rw [readU32, slice_ok data 0 (0 + 4) ⟨by omega, h⟩, ok_bind, pure_ok, List.drop_zero]

section Column
variable (flag : UInt8) (name : String) (after : Bytes)

theorem parsePhysical_named (isKey : Bool) :
    parsePhysical (flag :: (utf8Bytes name ++ 0 :: after)) isKey name = (do
      let tOid ← readU32 after 0
      let tMod ← readU32 after 4
      let kind ← kindFromOidMod tOid tMod
      return .physical ⟨isKey, name, kind⟩ (byteSizeLen name.utf8ByteSize)) := by
  have hsplit : flag :: (utf8Bytes name ++ 0 :: after) =
      (flag :: (utf8Bytes name ++ [0])) ++ after := by simp
  have hlen : 1 + name.utf8ByteSize + 1 = (flag :: (utf8Bytes name ++ [0])).length := by
    simp only [List.length_cons, List.length_append, utf8Bytes_length, List.length_nil]
    omega
  have hread := readU32_shift (flag :: (utf8Bytes name ++ [0])) after
  simp only [parsePhysical, hlen, hsplit, hread]
  rw [← hread 0, Nat.add_zero]

theorem parsePhysical_panics_iff (isKey : Bool) :
    parsePhysical (flag :: (utf8Bytes name ++ 0 :: after)) isKey name = panicked ↔
      after.length < 8 := by
  rw [parsePhysical_named]
  simp only [bind_panics_iff, readU32_panics_iff, kindFromOidMod_total, pure_ok, ok_ne_panicked,
    and_false, exists_false, or_false]
  constructor
  · rintro (hcut | ⟨_, _, hcut⟩)
    · omega
    · omega
  · intro hcut
    by_cases hoid : after.length < 4
    · exact Or.inl (by omega)
    · obtain ⟨x, hx, _⟩ := readU32_front after (by omega)
      exact Or.inr ⟨x, hx, by omega⟩

theorem parsePhysical_ok (isKey : Bool) (result : FieldParseResult)
    (hr : parsePhysical (flag :: (utf8Bytes name ++ 0 :: after)) isKey name = .ok result) :
    ∃ kind, result = .physical ⟨isKey, name, kind⟩ (byteSizeLen name.utf8ByteSize) := by
  rw [parsePhysical_named] at hr
  simp only [bind_ok_iff, pure_ok, Except.ok.injEq] at hr
  obtain ⟨_, _, _, _, kind, _, rfl⟩ := hr
  exact ⟨kind, rfl⟩

theorem parsePhysical_ok_iff (isKey : Bool) (h : 8 ≤ after.length) :
    (∃ kind, parsePhysical (flag :: (utf8Bytes name ++ 0 :: after)) isKey name =
        .ok (.physical ⟨isKey, name, kind⟩ (byteSizeLen name.utf8ByteSize))) ↔
      BigEndian.ofBytes (after.take 4) ∈ supportedOids := by
  obtain ⟨x, hx, hn⟩ := readU32_front after (by omega)
  obtain ⟨m, hm⟩ : ∃ m, readU32 after 4 = .ok m := by
    simp only [readU32, slice_ok after 4 (4 + 4) ⟨by omega, h⟩, ok_bind, pure_ok]
    exact ⟨_, rfl⟩
  rw [← hn, ← kindFromOidMod_ok_iff x m, parsePhysical_named]
  simp only [hx, hm, ok_bind, pure_ok, bind_ok_iff, Except.ok.injEq,
    FieldParseResult.physical.injEq, Field.mk.injEq, true_and, and_true, exists_eq_right]

theorem parseFields_next (n : ℕ) (acc : List Field) (h : 8 ≤ after.length) :
    parseFields (flag :: (utf8Bytes name ++ 0 :: after)) n (byteSizeLen name.utf8ByteSize) acc =
      parseFields (after.drop 8) n 0 acc := by
  have hsplit : flag :: (utf8Bytes name ++ 0 :: after) =
      (flag :: (utf8Bytes name ++ 0 :: after.take 8)) ++ after.drop 8 := by simp
  have hlen : byteSizeLen name.utf8ByteSize =
      (flag :: (utf8Bytes name ++ 0 :: after.take 8)).length := by
    simp only [byteSizeLen, List.length_cons, List.length_append, utf8Bytes_length,
      List.length_take_of_le h]
    omega
  rw [hsplit, hlen]
  exact parseFields_shift _ _ n 0 acc

theorem parseFields_cut (n : ℕ) (acc : List Field) (h : after.length < 8) :
    parseFields (flag :: (utf8Bytes name ++ 0 :: after)) (n+1) (byteSizeLen name.utf8ByteSize) acc =
      panicked := by
  have hout : (flag :: (utf8Bytes name ++ 0 :: after)).length < byteSizeLen name.utf8ByteSize := by
    simp only [byteSizeLen, List.length_cons, List.length_append, utf8Bytes_length]
    omega
  rw [parseFields, (sliceFrom_panics_iff _ _).mpr hout]
  rfl

theorem parseField_named (hname : (0 : UInt8) ∉ utf8Bytes name)
    (hmin : 10 ≤ (flag :: (utf8Bytes name ++ 0 :: after)).length) :
    parseField (flag :: (utf8Bytes name ++ 0 :: after)) =
      if flag = 0 then parsePhysical (flag :: (utf8Bytes name ++ 0 :: after)) false name
      else if flag = 1 then parsePhysical (flag :: (utf8Bytes name ++ 0 :: after)) true name
      else if flag = 2 ∨ flag = 3 then .ok (.logical (byteSizeLen name.utf8ByteSize))
      else fail (.wrongFieldDataFlag flag) := by
  have hi : (index (flag :: (utf8Bytes name ++ 0 :: after)) 0 : Decoded UInt8) = .ok flag := rfl
  have hs : (sliceFrom (flag :: (utf8Bytes name ++ 0 :: after)) 1 : Decoded Bytes) =
      .ok (utf8Bytes name ++ 0 :: after) := sliceFrom_append [flag] _
  rw [parseField, if_neg (by omega), hi, ok_bind, hs, ok_bind,
    extractString_terminated name after hname, ok_bind]
  rfl

end Column

theorem parseField_unnamed (input : Bytes)
    (h : ∀ flag name after, input = flag :: (utf8Bytes name ++ 0 :: after) →
      (0 : UInt8) ∉ utf8Bytes name → input.length < 10) : ∃ e, parseField input = fail e := by
  by_cases hmin : input.length < 10
  · exact ⟨.truncatedInput, if_pos hmin⟩
  · cases input with
    | nil => exact absurd (by simp) hmin
    | cons flag rest =>
      have hi : (index (flag :: rest) 0 : Decoded UInt8) = .ok flag := rfl
      have hs : (sliceFrom (flag :: rest) 1 : Decoded Bytes) = .ok rest := sliceFrom_append [flag] _
      cases hname : extractString rest with
      | ok name =>
        obtain ⟨hfree, after, rfl⟩ := (extractString_ok_iff rest name).mp hname
        exact absurd (h flag name after rfl hfree) hmin
      | error x =>
        cases x with
        | panic => exact absurd hname (extractString_total rest)
        | error e =>
          refine ⟨e, ?_⟩
          rw [parseField, if_neg hmin, hi, ok_bind, hs, ok_bind, hname]
          rfl

theorem terminated_inj {name name' : String} {after after' : Bytes}
    (hname : (0 : UInt8) ∉ utf8Bytes name) (hname' : (0 : UInt8) ∉ utf8Bytes name')
    (h : utf8Bytes name ++ 0 :: after = utf8Bytes name' ++ 0 :: after') :
    name = name' ∧ after = after' := by
  have hn := extractString_terminated name after hname
  rw [h, extractString_terminated name' after' hname', Except.ok.injEq] at hn
  subst hn
  exact ⟨rfl, (List.cons.inj (List.append_cancel_left h)).2⟩

section Loop
variable {flag : UInt8} {name : String} {after : Bytes}

theorem columnsOverrun_named (n : ℕ) (hname : (0 : UInt8) ∉ utf8Bytes name)
    (hmin : 10 ≤ (flag :: (utf8Bytes name ++ 0 :: after)).length) :
    ColumnsOverrun (n+1) (flag :: (utf8Bytes name ++ 0 :: after)) ↔
      (flag ≤ 1 ∧ (after.length < 8 ∨
          (BigEndian.ofBytes (after.take 4) ∈ supportedOids ∧ ColumnsOverrun n (after.drop 8)))) ∨
        ((flag = 2 ∨ flag = 3) ∧ 0 < n ∧ (after.length < 8 ∨ ColumnsOverrun n (after.drop 8))) := by
  rw [ColumnsOverrun]
  constructor
  · rintro ⟨_, flag', name', after', heq, hname', h⟩
    obtain ⟨rfl, htail⟩ := List.cons.inj heq
    obtain ⟨rfl, rfl⟩ := terminated_inj hname hname' htail
    exact h
  · exact fun h => ⟨hmin, flag, name, after, rfl, hname, h⟩

theorem physical_panics_iff (isKey : Bool) (n : ℕ) (next : FieldParseResult → Decoded (List Field))
    (hnext : 8 ≤ after.length → ∀ field,
      next (.physical field (byteSizeLen name.utf8ByteSize)) = panicked ↔
        ColumnsOverrun n (after.drop 8)) :
    (parsePhysical (flag :: (utf8Bytes name ++ 0 :: after)) isKey name >>= next) = panicked ↔
      after.length < 8 ∨
        (BigEndian.ofBytes (after.take 4) ∈ supportedOids ∧ ColumnsOverrun n (after.drop 8)) := by
  rw [bind_panics_iff, parsePhysical_panics_iff]
  by_cases hcut : after.length < 8
  · simp [hcut]
  · have hwhole : 8 ≤ after.length := by omega
    simp only [hcut, false_or]
    rw [← parsePhysical_ok_iff flag name after isKey hwhole]
    constructor
    · rintro ⟨result, hr, hpanic⟩
      obtain ⟨kind, rfl⟩ := parsePhysical_ok flag name after isKey result hr
      exact ⟨⟨kind, hr⟩, (hnext hwhole _).mp hpanic⟩
    · rintro ⟨⟨kind, hr⟩, hover⟩
      exact ⟨_, hr, (hnext hwhole _).mpr hover⟩

theorem parseFields_behind (n : ℕ) (acc : List Field)
    (hnext : parseFields (after.drop 8) n 0 acc = panicked ↔ ColumnsOverrun n (after.drop 8)) :
    parseFields (flag :: (utf8Bytes name ++ 0 :: after)) n (byteSizeLen name.utf8ByteSize) acc =
        panicked ↔
      0 < n ∧ (after.length < 8 ∨ ColumnsOverrun n (after.drop 8)) := by
  by_cases hcut : after.length < 8
  · simp only [hcut, true_or, and_true]
    cases n with
    | zero => simp [parseFields]
    | succ n => simp [parseFields_cut flag name after n acc hcut]
  · rw [parseFields_next flag name after n acc (by omega), hnext]
    simp only [hcut, false_or]
    cases n with
    | zero => simp [ColumnsOverrun]
    | succ n => simp

end Loop

theorem flag_physical_iff (flag : UInt8) : flag ≤ 1 ↔ flag = 0 ∨ flag = 1 := by
  have hle : flag ≤ 1 ↔ flag.toNat ≤ 1 := Iff.rfl
  rw [hle, ← UInt8.toNat_inj, ← UInt8.toNat_inj]
  simp only [UInt8.toNat_ofNat]
  omega

/-- The column loop panics exactly where a column is cut. -/
theorem parseFields_panics_iff (n : ℕ) (input : Bytes) (acc : List Field) :
    parseFields input n 0 acc = panicked ↔ ColumnsOverrun n input := by
  induction n generalizing input acc with
  | zero => simp [parseFields, ColumnsOverrun]
  | succ n ih =>
    have hstart : (sliceFrom input 0 : Decoded Bytes) = .ok input := sliceFrom_ok input 0 (by omega)
    rw [parseFields, hstart, ok_bind]
    by_cases hcolumn : ∃ flag name after, input = flag :: (utf8Bytes name ++ 0 :: after) ∧
        (0 : UInt8) ∉ utf8Bytes name ∧ 10 ≤ input.length
    · obtain ⟨flag, name, after, rfl, hname, hmin⟩ := hcolumn
      rw [parseField_named flag name after hname hmin, columnsOverrun_named n hname hmin]
      have hnext : 8 ≤ after.length → ∀ acc, parseFields (flag :: (utf8Bytes name ++ 0 :: after)) n
          (byteSizeLen name.utf8ByteSize) acc = panicked ↔ ColumnsOverrun n (after.drop 8) := by
        intro hwhole acc
        rw [parseFields_next flag name after n acc hwhole, ih]
      have hphysical : ∀ hwhole field, _ := fun (hwhole : 8 ≤ after.length) field =>
        hnext hwhole (acc ++ [field])
      by_cases h0 : flag = 0
      · rw [if_pos h0, physical_panics_iff false n _ (by simpa using hphysical)]
        simp [h0]
      by_cases h1 : flag = 1
      · rw [if_neg h0, if_pos h1, physical_panics_iff true n _ (by simpa using hphysical)]
        simp [h1]
      have hlogical : ¬ flag ≤ 1 := by
        rw [flag_physical_iff, not_or]
        exact ⟨h0, h1⟩
      rw [if_neg h0, if_neg h1]
      by_cases h23 : flag = 2 ∨ flag = 3
      · rw [if_pos h23, ok_bind]
        simp only [hlogical, h23, false_and, false_or, true_and, Nat.zero_add]
        exact parseFields_behind n acc (ih _ acc)
      · rw [if_neg h23]
        refine iff_of_false (fail_ne_panicked _) ?_
        simp [hlogical, h23]
    · obtain ⟨e, he⟩ := parseField_unnamed input (by
        intro flag name after heq hfree
        by_contra hlong
        exact hcolumn ⟨flag, name, after, heq, hfree, by omega⟩)
      rw [he]
      refine iff_of_false (fail_ne_panicked e) ?_
      rintro ⟨hmin, flag, name, after, heq, hfree, _⟩
      exact hcolumn ⟨flag, name, after, heq, hfree, hmin⟩

theorem replicaKind_ok_iff (b : UInt8) :
    (∃ replica, replicaKind b = .ok replica) ↔ b = tagDefault ∨ b = tagFull := by
  unfold replicaKind
  split_ifs with hd hf
  · simp [hd]
  · simp [hf]
  · simp [hd, hf, fail]

theorem replicaKind_total (b : UInt8) : replicaKind b ≠ panicked := by
  unfold replicaKind
  split_ifs <;> simp

theorem parse_tail_panics_iff (replica : UInt8) (tail : Bytes) (hlen : 1 ≤ tail.length)
    (finish : ReplicaKind → List Field → RelationData) :
    (do
      let replicaId ← replicaKind (← index (replica :: tail) 0)
      let cols ← readU16 (replica :: tail) 1
      let fields ← parseFields (replica :: tail) cols 3 []
      return finish replicaId fields : Decoded RelationData) = panicked ↔
      (replica = tagDefault ∨ replica = tagFull) ∧
        (tail.length = 1 ∨ ∃ count columns, tail = count ++ columns ∧ count.length = 2 ∧
          ColumnsOverrun (BigEndian.ofBytes count) columns) := by
  have hi : (index (replica :: tail) 0 : Decoded UInt8) = .ok replica := rfl
  rw [hi, ok_bind, bind_panics_iff, or_iff_right (replicaKind_total replica), ← replicaKind_ok_iff,
    ← exists_and_right]
  refine exists_congr fun replicaId => and_congr_right fun _ => ?_
  by_cases hcut : tail.length = 1
  · have hout : (slice (replica :: tail) 1 (1 + 2) : Decoded Bytes) = panicked := by
      rw [slice_panics_iff, List.length_cons]
      omega
    rw [readU16, hout]
    exact iff_of_true rfl (Or.inl hcut)
  · obtain ⟨count, columns, rfl, hcount⟩ := split_front 2 (by omega : 2 ≤ tail.length)
    have hcols : readU16 (replica :: (count ++ columns)) 1 = .ok (BigEndian.ofBytes count) := by
      rw [← readU16_front count columns hcount]
      exact readU16_shift [replica] (count ++ columns) 0
    have hfields := parseFields_shift (replica :: count) columns (BigEndian.ofBytes count) 0 []
    rw [List.length_cons, hcount, List.cons_append] at hfields
    rw [hcols, ok_bind, hfields, bind_panics_iff, parseFields_panics_iff,
      counted_iff count columns hcount, or_iff_right hcut]
    simp

theorem split_oid {data : Bytes} (h : ¬ data.length < 5) :
    ∃ tag oid rest, data = tag :: (oid ++ rest) ∧ oid.length = 4 := by
  cases data with
  | nil => exact absurd (by simp) h
  | cons tag data =>
    rw [List.length_cons] at h
    obtain ⟨oid, rest, rfl, hoid⟩ := split_front 4 (by omega : 4 ≤ data.length)
    exact ⟨tag, oid, rest, rfl, hoid⟩

def Named (data : Bytes) : Prop :=
  ∃ tag oid nspace name tail,
    data = tag :: (oid ++ (utf8Bytes nspace ++ 0 :: (utf8Bytes name ++ 0 :: tail))) ∧
      oid.length = 4 ∧ (0 : UInt8) ∉ utf8Bytes nspace ∧ (0 : UInt8) ∉ utf8Bytes name ∧
      10 ≤ data.length

theorem parse_unnamed (data : Bytes) (h : ¬ Named data) : RelationDecoder.parse data ≠ panicked := by
  unfold RelationDecoder.parse
  by_cases hmin : data.length < 10
  · simp [hmin]
  obtain ⟨tag, oid, rest, rfl, hoid⟩ := split_oid (by omega : ¬ data.length < 5)
  obtain ⟨x, hx, _⟩ := readU32_after_tag tag oid rest hoid
  have hafter : (sliceFrom (tag :: (oid ++ rest)) 5 : Decoded Bytes) = .ok rest := by
    have hs := sliceFrom_append (ε := DecoderError) (tag :: oid) rest
    rwa [List.length_cons, hoid] at hs
  rw [if_neg hmin, hx, ok_bind, hafter, ok_bind, ne_eq, bind_panics_iff,
    or_iff_right (extractString_total rest)]
  rintro ⟨nspace, hnspace, hpanic⟩
  obtain ⟨hfree, behind, rfl⟩ := (extractString_ok_iff rest nspace).mp hnspace
  have hbehind : (sliceFrom (tag :: (oid ++ (utf8Bytes nspace ++ 0 :: behind)))
      (5 + nspace.utf8ByteSize + 1) : Decoded Bytes) = .ok behind := by
    have hs := sliceFrom_append (ε := DecoderError) (tag :: (oid ++ (utf8Bytes nspace ++ [0]))) behind
    have hlen : (tag :: (oid ++ (utf8Bytes nspace ++ [0]))).length = 5 + nspace.utf8ByteSize + 1 := by
      simp only [List.length_cons, List.length_append, hoid, utf8Bytes_length, List.length_nil]
      omega
    rw [hlen] at hs
    simpa using hs
  rw [hbehind, ok_bind, bind_panics_iff, or_iff_right (extractString_total behind)] at hpanic
  obtain ⟨name, hname, _⟩ := hpanic
  obtain ⟨hfree', tail, rfl⟩ := (extractString_ok_iff behind name).mp hname
  exact h ⟨tag, oid, nspace, name, tail, rfl, hoid, hfree, hfree', by omega⟩

theorem relation_panics_iff (data : Bytes) :
    RelationDecoder.parse data = panicked ↔ RelationOverruns data := by
  by_cases hnamed : Named data
  · obtain ⟨tag, oid, nspace, name, tail, rfl, hoid, hnspace, hname, hmin⟩ := hnamed
    rw [parse_header tag oid tail nspace name hoid hnspace hname hmin]
    have hheader : RelationOverruns (tag :: (oid ++ (utf8Bytes nspace ++ 0 :: (utf8Bytes name ++
        0 :: tail)))) ↔ ∃ replica rest, tail = replica :: rest ∧
          (replica = tagDefault ∨ replica = tagFull) ∧
          (rest.length = 1 ∨ ∃ count columns, rest = count ++ columns ∧ count.length = 2 ∧
            ColumnsOverrun (BigEndian.ofBytes count) columns) := by
      constructor
      · rintro ⟨_, tag', oid', nspace', name', replica, rest, heq, hoid', hnspace', hname', h⟩
        obtain ⟨rfl, hbody⟩ := List.cons.inj heq
        obtain ⟨rfl, hnames⟩ := List.append_inj hbody (hoid.trans hoid'.symm)
        obtain ⟨rfl, hafter⟩ := terminated_inj hnspace hnspace' hnames
        obtain ⟨rfl, rfl⟩ := terminated_inj hname hname' hafter
        exact ⟨replica, rest, rfl, h⟩
      · rintro ⟨replica, rest, rfl, h⟩
        exact ⟨hmin, tag, oid, nspace, name, replica, rest, rfl, hoid, hnspace, hname, h⟩
    rw [hheader]
    by_cases hshort : tail.length < 2
    · rw [if_pos hshort]
      refine iff_of_false (fail_ne_panicked _) ?_
      rintro ⟨replica, rest, rfl, _, hrest⟩
      rw [List.length_cons] at hshort
      rcases hrest with h | ⟨count, columns, rfl, hcount, _⟩
      · omega
      · rw [List.length_append] at hshort
        omega
    · obtain ⟨replica, rest, rfl⟩ : ∃ replica rest, tail = replica :: rest :=
        List.exists_cons_of_length_pos (by omega)
      rw [List.length_cons] at hshort
      rw [if_neg (by rwa [List.length_cons]), parse_tail_panics_iff replica rest (by omega)]
      simp
  · refine iff_of_false (parse_unnamed data hnamed) ?_
    rintro ⟨hmin, tag, oid, nspace, name, replica, rest, heq, hoid, hnspace, hname, _⟩
    exact hnamed ⟨tag, oid, nspace, name, replica :: rest, heq, hoid, hnspace, hname, hmin⟩

end CDC.RelationPanics
