import CdcConnector.AvroCodec

/-!
# Serialisation through Avro

What a type's serialiser hands out, the datum of a schema that stands for it,
and what a type's deserialiser is shown of a datum. In a union the branch is
the record with the name of the value. The library behind both directions is a
parameter: it writes some encoding of the datum, and reads every encoding.
-/

set_option autoImplicit false

namespace CDC.SerdeAvro
open CDC.AvroCodec

inductive Serde where
  | unit
  | bool (b : Bool)
  | u8 (n : UInt8)
  | u32 (n : UInt32)
  | i32 (n : Int32)
  | i64 (n : Int64)
  | str (s : String)
  | seq (items : List Serde)
  | struct (name : String) (fields : List (String × Serde))
  | structVariant (name variant : String) (fields : List (String × Serde))

def Serde.recordName : Serde → Option String
  | .struct name _ => some name
  | .structVariant _ variant _ => some variant
  | _ => none

def Serde.fields : Serde → Option (List (String × Serde))
  | .struct _ fields => some fields
  | .structVariant _ _ fields => some fields
  | _ => none

def isNamed (name : String) : Schema → Bool
  | .record n _ => n = name
  | _ => false

mutual

/-- The datum of the schema that stands for a serialised value. -/
def resolve : Schema → Serde → Option Datum
  | .null, .unit => some .null
  | .boolean, .bool b => some (.boolean b)
  | .int, .u8 n => some (.int (Int32.ofNat n.toNat))
  | .int, .i32 n => some (.int n)
  | .long, .u32 n => some (.long (Int64.ofNat n.toNat))
  | .long, .i32 n => some (.long n.toInt64)
  | .long, .i64 n => some (.long n)
  | .string, .str s => some (.string s)
  | .array items, .seq vals => (vals.mapM (resolve items)).map .array
  | .record name fields, v => do
    let vals ← v.fields
    (resolveFields fields vals).map (.record name)
  | .union branches, v => do
    let name ← v.recordName
    resolveBranch branches name 0 v
  | _, _ => none

def resolveFields : List (String × Schema) → List (String × Serde) →
    Option (List (String × Datum))
  | [], _ => some []
  | (name, schema)::fields, vals => do
    let v ← vals.lookup name
    let d ← resolve schema v
    let rest ← resolveFields fields vals
    return (name, d)::rest

def resolveBranch : List Schema → String → ℕ → Serde → Option Datum
  | [], _, _, _ => none
  | branch::branches, name, i, v =>
    if isNamed name branch then (resolve branch v).map (.union i)
    else resolveBranch branches name (i+1) v

end

theorem mapM_forall {α β : Type} (f : α → Option β) (P : β → Prop) (xs : List α) (ys : List β)
    (hP : ∀ x y, f x = some y → P y) (h : xs.mapM f = some ys) : ∀ y ∈ ys, P y := by
  induction xs generalizing ys with
  | nil =>
    cases h
    simp
  | cons x xs ih =>
    simp only [List.mapM_cons, Option.bind_eq_bind, Option.bind_eq_some_iff, Option.pure_def,
      Option.some.injEq] at h
    obtain ⟨y, hy, rest, hrest, rfl⟩ := h
    intro z hz
    rcases List.mem_cons.mp hz with rfl | hz
    · exact hP x z hy
    · exact ih rest hrest z hz

mutual

theorem resolve_encodes (schema : Schema) (v : Serde) (d : Datum) (h : resolve schema v = some d) :
    Encodes schema d (encode d) := by
  cases schema with
  | null =>
    cases v <;> cases h
    simp [Encodes, encode]
  | boolean =>
    cases v <;> cases h
    simp [Encodes, encode]
  | int =>
    cases v <;> cases h <;> simp [Encodes, encode]
  | long =>
    cases v <;> cases h <;> simp [Encodes, encode]
  | string =>
    cases v <;> cases h
    simp [Encodes, encode]
  | array items =>
    cases v with
    | seq vals =>
      rw [resolve] at h
      obtain ⟨ds, hds, rfl⟩ := Option.map_eq_some_iff.mp h
      exact encodes_array items ds (mapM_forall (resolve items) _ vals ds
        (fun v d hd => resolve_encodes items v d hd) hds)
    | _ => cases h
  | record name fields =>
    simp only [resolve, Option.bind_eq_bind, Option.bind_eq_some_iff] at h
    obtain ⟨vals, _, h⟩ := h
    obtain ⟨ds, hds, rfl⟩ := Option.map_eq_some_iff.mp h
    rw [Encodes, encode]
    exact ⟨ds, rfl, resolveFields_encodes fields vals ds hds⟩
  | union branches =>
    simp only [resolve, Option.bind_eq_bind, Option.bind_eq_some_iff] at h
    obtain ⟨name, _, h⟩ := h
    obtain ⟨i, body, rfl, hbody⟩ := resolveBranch_encodes branches name 0 v d h
    rw [Nat.zero_add, Encodes, encode]
    exact ⟨i, body, encode body, rfl, rfl, hbody⟩

theorem resolveFields_encodes (fields : List (String × Schema)) (vals : List (String × Serde))
    (ds : List (String × Datum)) (h : resolveFields fields vals = some ds) :
    EncodesFields fields ds (encodeFields ds) := by
  cases fields with
  | nil =>
    cases h
    simp [EncodesFields, encodeFields]
  | cons field fields =>
    obtain ⟨name, schema⟩ := field
    simp only [resolveFields, Option.bind_eq_bind, Option.bind_eq_some_iff, Option.pure_def,
      Option.some.injEq] at h
    obtain ⟨v, _, d, hd, rest, hrest, rfl⟩ := h
    rw [EncodesFields, encodeFields]
    exact ⟨d, rest, encode d, encodeFields rest, rfl, rfl, resolve_encodes schema v d hd,
      resolveFields_encodes fields vals rest hrest⟩

theorem resolveBranch_encodes (branches : List Schema) (name : String) (i : ℕ) (v : Serde) (d : Datum)
    (h : resolveBranch branches name i v = some d) :
    ∃ j body, d = .union (i + j) body ∧ EncodesBranch branches j body (encode body) := by
  cases branches with
  | nil => cases h
  | cons branch branches =>
    rw [resolveBranch] at h
    by_cases hname : isNamed name branch = true
    · rw [if_pos hname] at h
      obtain ⟨body, hbody, rfl⟩ := Option.map_eq_some_iff.mp h
      refine ⟨0, body, rfl, ?_⟩
      rw [EncodesBranch]
      exact resolve_encodes branch v body hbody
    · rw [if_neg hname] at h
      obtain ⟨j, body, rfl, hbody⟩ := resolveBranch_encodes branches name (i+1) v d h
      refine ⟨j + 1, body, by rw [Nat.add_right_comm, Nat.add_assoc], ?_⟩
      rw [EncodesBranch]
      exact hbody

end

inductive DeError where
  | avro
  | invalidType
  | invalidValue
  | missingField (name : String)
  | duplicateField (name : String)
  | unknownVariant (name : String)
  | custom (message : String)
  deriving DecidableEq, Repr

def asMap : Datum → Except DeError (List (String × Datum))
  | .record _ fields => .ok fields
  | .union _ d => asMap d
  | _ => .error .invalidType

def asVariant : Datum → Except DeError (String × List (String × Datum))
  | .union _ (.record name fields) => .ok (name, fields)
  | _ => .error .invalidType

def asSeq : Datum → Except DeError (List Datum)
  | .array items => .ok items
  | _ => .error .invalidType

def asUnit : Datum → Except DeError Unit
  | .null => .ok ()
  | _ => .error .invalidType

def asBool : Datum → Except DeError Bool
  | .boolean b => .ok b
  | _ => .error .invalidType

def asStr : Datum → Except DeError String
  | .string s => .ok s
  | _ => .error .invalidType

def asI64 : Datum → Except DeError Int64
  | .int n => .ok n.toInt64
  | .long n => .ok n
  | _ => .error .invalidType

def asI32 (d : Datum) : Except DeError Int32 := do
  let n ← asI64 d
  if -2^31 ≤ n.toInt ∧ n.toInt < 2^31 then return Int32.ofInt n.toInt else throw .invalidValue

def asU32 (d : Datum) : Except DeError UInt32 := do
  let n ← asI64 d
  if 0 ≤ n.toInt ∧ n.toInt < 2^32 then return UInt32.ofNat n.toInt.toNat else throw .invalidValue

def asU8 (d : Datum) : Except DeError UInt8 := do
  let n ← asI64 d
  if 0 ≤ n.toInt ∧ n.toInt < 2^8 then return UInt8.ofNat n.toInt.toNat else throw .invalidValue

def field (name : String) (fields : List (String × Datum)) : Except DeError Datum :=
  match fields.filter (fun f => f.1 = name) with
  | [] => .error (.missingField name)
  | [(_, d)] => .ok d
  | _ => .error (.duplicateField name)

theorem asI32_long (n : Int32) : asI32 (.long n.toInt64) = .ok n := by
  have hrange : -2^31 ≤ n.toInt64.toInt ∧ n.toInt64.toInt < 2^31 := by
    rw [Int32.toInt_toInt64]
    exact ⟨n.le_toInt, n.toInt_lt⟩
  show (if -2^31 ≤ n.toInt64.toInt ∧ n.toInt64.toInt < 2^31 then
    Except.ok (Int32.ofInt n.toInt64.toInt) else Except.error DeError.invalidValue) = .ok n
  rw [if_pos hrange, Int32.toInt_toInt64, Int32.ofInt_toInt]

theorem asU32_long (n : UInt32) : asU32 (.long (Int64.ofNat n.toNat)) = .ok n := by
  have hlt := n.toNat_lt
  have hint : (Int64.ofNat n.toNat).toInt = n.toNat := Int64.toInt_ofNat_of_lt (by omega)
  have hrange : 0 ≤ (n.toNat : ℤ) ∧ (n.toNat : ℤ) < 2^32 := by omega
  show (if 0 ≤ (Int64.ofNat n.toNat).toInt ∧ (Int64.ofNat n.toNat).toInt < 2^32 then
    Except.ok (UInt32.ofNat (Int64.ofNat n.toNat).toInt.toNat)
    else Except.error DeError.invalidValue) = .ok n
  rw [hint, if_pos hrange, Int.toNat_natCast, UInt32.ofNat_toNat]

theorem asU8_int (n : UInt8) : asU8 (.int (Int32.ofNat n.toNat)) = .ok n := by
  have hlt := n.toNat_lt
  have hint : (Int32.ofNat n.toNat).toInt64.toInt = n.toNat := by
    rw [Int32.toInt_toInt64]
    exact Int32.toInt_ofNat_of_lt (by omega)
  have hrange : 0 ≤ (n.toNat : ℤ) ∧ (n.toNat : ℤ) < 2^8 := by omega
  show (if 0 ≤ (Int32.ofNat n.toNat).toInt64.toInt ∧ (Int32.ofNat n.toNat).toInt64.toInt < 2^8 then
    Except.ok (UInt8.ofNat (Int32.ofNat n.toNat).toInt64.toInt.toNat)
    else Except.error DeError.invalidValue) = .ok n
  rw [hint, if_pos hrange, Int.toNat_natCast, UInt8.ofNat_toNat]

structure Library (SerError : Type) where
  toDatum : Schema → Serde → Except SerError (List UInt8)
  fromDatum : Schema → List UInt8 → Except DeError Datum

section Laws
variable {SerError : Type}

/-- Whatever the schema has a datum for is written, in one of its encodings. -/
def WritesAvro (lib : Library SerError) : Prop :=
  ∀ schema v d, resolve schema v = some d →
    ∃ bytes, lib.toDatum schema v = .ok bytes ∧ Encodes schema d bytes

/-- Every encoding of a datum is read. -/
def ReadsAvro (lib : Library SerError) : Prop :=
  ∀ schema d bytes, Encodes schema d bytes → lib.fromDatum schema bytes = .ok d

theorem written_read (lib : Library SerError) (hwrites : WritesAvro lib) (hreads : ReadsAvro lib)
    (schema : Schema) (v : Serde) (d : Datum) (h : resolve schema v = some d) :
    ∃ bytes, lib.toDatum schema v = .ok bytes ∧ lib.fromDatum schema bytes = .ok d := by
  obtain ⟨bytes, hbytes, hencodes⟩ := hwrites schema v d h
  exact ⟨bytes, hbytes, hreads schema d bytes hencodes⟩

end Laws

def codec : Library Unit where
  toDatum schema v :=
    match resolve schema v with
    | some d => .ok (encode d)
    | none => .error ()
  fromDatum schema bytes :=
    match decode schema bytes with
    | some (d, _) => .ok d
    | none => .error .avro

theorem codec_writes : WritesAvro codec := by
  intro schema v d h
  exact ⟨encode d, by simp [codec, h], resolve_encodes schema v d h⟩

theorem codec_reads : ReadsAvro codec := by
  intro schema d bytes h
  have hd := decode_encodes schema d bytes [] h
  rw [List.append_nil] at hd
  simp [codec, hd]

end CDC.SerdeAvro
