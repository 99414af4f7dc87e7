import CdcConnector.Varint

/-!
# The Avro binary encoding

A schema says how a datum is written: numbers as zig-zag varints, a string
behind its length, an array in blocks behind their counts, a record as its
fields in order, a union as the index of its branch and the branch's datum.
An array may be cut into blocks in any way, and a block may carry its size. A
named schema stands for its definition.
-/

set_option autoImplicit false

namespace CDC.AvroCodec
open CDC.Varint

inductive Schema where
  | null
  | boolean
  | int
  | long
  | string
  | array (items : Schema)
  | record (name : String) (fields : List (String × Schema))
  | union (branches : List Schema)

inductive Datum where
  | null
  | boolean (b : Bool)
  | int (n : Int32)
  | long (n : Int64)
  | string (s : String)
  | array (items : List Datum)
  | record (name : String) (fields : List (String × Datum))
  | union (index : ℕ) (datum : Datum)

def utf8 (s : String) : List UInt8 := s.toByteArray.data.toList

def boolByte (b : Bool) : UInt8 := if b then 1 else 0

section Lists
variable {α : Type} (E : α → List UInt8 → Prop) (read : List UInt8 → Option (α × List UInt8))

inductive Items : List α → List UInt8 → Prop where
  | nil : Items [] []
  | cons (v : α) (vals : List α) (item bytes : List UInt8) (h : E v item) (hs : Items vals bytes) :
      Items (v::vals) (item ++ bytes)

/-- The blocks of an array. A negative count announces the size of its block. -/
inductive Blocks : List α → List UInt8 → Prop where
  | done : Blocks [] (number 0)
  | counted (vals more : List α) (block bytes : List UInt8) (hsome : vals ≠ [])
      (hblock : Items E vals block) (hs : Blocks more bytes) :
      Blocks (vals ++ more) (number vals.length ++ (block ++ bytes))
  | sized (vals more : List α) (block bytes : List UInt8) (hsome : vals ≠ [])
      (hblock : Items E vals block) (hs : Blocks more bytes) :
      Blocks (vals ++ more) (number (-vals.length) ++ (number block.length ++ (block ++ bytes)))

def readItems : ℕ → List UInt8 → Option (List α × List UInt8)
  | 0, bytes => some ([], bytes)
  | n+1, bytes => do
    let (v, bytes) ← read bytes
    let (vals, bytes) ← readItems n bytes
    return (v::vals, bytes)

def readBlocks : ℕ → List UInt8 → Option (List α × List UInt8)
  | 0, _ => none
  | fuel+1, bytes => do
    let (count, bytes) ← readNumber bytes
    if count = 0 then return ([], bytes)
    else
      let bytes ← if count < 0 then (readNumber bytes).map Prod.snd else some bytes
      let (vals, bytes) ← readItems read count.natAbs bytes
      let (more, bytes) ← readBlocks fuel bytes
      return (vals ++ more, bytes)

variable {E read}

theorem readItems_items (hread : ∀ v bytes rest, E v bytes → read (bytes ++ rest) = some (v, rest))
    (vals : List α) (bytes rest : List UInt8) (h : Items E vals bytes) :
    readItems read vals.length (bytes ++ rest) = some (vals, rest) := by
  induction h generalizing rest with
  | nil => rfl
  | cons v vals item bytes h hs ih =>
    rw [List.length_cons, readItems, List.append_assoc, hread v item _ h]
    simp [ih rest]

theorem readBlocks_blocks
    (hread : ∀ v bytes rest, E v bytes → read (bytes ++ rest) = some (v, rest)) (vals : List α)
    (bytes : List UInt8) (h : Blocks E vals bytes) (rest : List UInt8) (fuel : ℕ)
    (hfuel : bytes.length < fuel) : readBlocks read fuel (bytes ++ rest) = some (vals, rest) := by
  induction h generalizing fuel with
  | done =>
    obtain ⟨fuel, rfl⟩ : ∃ n, fuel = n + 1 := ⟨fuel - 1, by omega⟩
    rw [readBlocks, readNumber_number]
    rfl
  | counted vals more block bytes hsome hblock hs ih =>
    obtain ⟨fuel, rfl⟩ : ∃ n, fuel = n + 1 := ⟨fuel - 1, by omega⟩
    have hpos := number_length_pos vals.length
    have hsign : ¬ (vals.length : ℤ) < 0 := by omega
    have hrest : bytes.length < fuel := by
      simp only [List.length_append] at hfuel
      omega
    rw [readBlocks, List.append_assoc, readNumber_number, List.append_assoc]
    simp [hsome, hsign, readItems_items hread vals block _ hblock, ih fuel hrest]
  | sized vals more block bytes hsome hblock hs ih =>
    obtain ⟨fuel, rfl⟩ : ∃ n, fuel = n + 1 := ⟨fuel - 1, by omega⟩
    have hpos := number_length_pos (-vals.length)
    have hlen : 0 < vals.length := List.length_pos_iff.mpr hsome
    have hsign : -(vals.length : ℤ) < 0 := by omega
    have hrest : bytes.length < fuel := by
      simp only [List.length_append] at hfuel
      omega
    rw [readBlocks, List.append_assoc, readNumber_number, List.append_assoc, List.append_assoc]
    simp [hsome, hlen, readNumber_number, readItems_items hread vals block _ hblock, ih fuel hrest]

end Lists

mutual

/-- The bytes that stand for a datum of the schema. -/
def Encodes : Schema → Datum → List UInt8 → Prop
  | .null, d, bytes => d = .null ∧ bytes = []
  | .boolean, d, bytes => ∃ b, d = .boolean b ∧ bytes = [boolByte b]
  | .int, d, bytes => ∃ n : Int32, d = .int n ∧ bytes = number n.toInt
  | .long, d, bytes => ∃ n : Int64, d = .long n ∧ bytes = number n.toInt
  | .string, d, bytes => ∃ s, d = .string s ∧ bytes = number (utf8 s).length ++ utf8 s
  | .array items, d, bytes => ∃ vals, d = .array vals ∧ Blocks (Encodes items) vals bytes
  | .record name fields, d, bytes => ∃ vals, d = .record name vals ∧ EncodesFields fields vals bytes
  | .union branches, d, bytes =>
    ∃ i v body, d = .union i v ∧ bytes = number i ++ body ∧ EncodesBranch branches i v body

def EncodesFields : List (String × Schema) → List (String × Datum) → List UInt8 → Prop
  | [], vals, bytes => vals = [] ∧ bytes = []
  | (name, schema)::fields, vals, bytes =>
    ∃ v rest front back, vals = (name, v)::rest ∧ bytes = front ++ back ∧ Encodes schema v front ∧
      EncodesFields fields rest back

def EncodesBranch : List Schema → ℕ → Datum → List UInt8 → Prop
  | [], _, _, _ => False
  | branch::_, 0, v, bytes => Encodes branch v bytes
  | _::branches, i+1, v, bytes => EncodesBranch branches i v bytes

end

mutual

def decode : Schema → List UInt8 → Option (Datum × List UInt8)
  | .null, bytes => some (.null, bytes)
  | .boolean, [] => none
  | .boolean, b::bytes => if b = 0 then some (.boolean false, bytes)
    else if b = 1 then some (.boolean true, bytes) else none
  | .int, bytes => do
    let (n, rest) ← readNumber bytes
    if -2^31 ≤ n ∧ n < 2^31 then some (.int (Int32.ofInt n), rest) else none
  | .long, bytes => do
    let (n, rest) ← readNumber bytes
    if -2^63 ≤ n ∧ n < 2^63 then some (.long (Int64.ofInt n), rest) else none
  | .string, bytes => do
    let (n, rest) ← readNumber bytes
    if 0 ≤ n ∧ n.toNat ≤ rest.length then
      (String.fromUTF8? ⟨(rest.take n.toNat).toArray⟩).map (fun s => (.string s, rest.drop n.toNat))
    else none
  | .array items, bytes =>
    (readBlocks (decode items) (bytes.length + 1) bytes).map (fun r => (.array r.1, r.2))
  | .record name fields, bytes => (decodeFields fields bytes).map (fun r => (.record name r.1, r.2))
  | .union branches, bytes => do
    let (i, rest) ← readNumber bytes
    if 0 ≤ i then (decodeBranch branches i.toNat rest).map (fun r => (.union i.toNat r.1, r.2))
    else none

def decodeFields : List (String × Schema) → List UInt8 → Option (List (String × Datum) × List UInt8)
  | [], bytes => some ([], bytes)
  | (name, schema)::fields, bytes => do
    let (v, bytes) ← decode schema bytes
    let (vals, bytes) ← decodeFields fields bytes
    return ((name, v)::vals, bytes)

def decodeBranch : List Schema → ℕ → List UInt8 → Option (Datum × List UInt8)
  | [], _, _ => none
  | branch::_, 0, bytes => decode branch bytes
  | _::branches, i+1, bytes => decodeBranch branches i bytes

end

theorem fromUtf8_utf8 (s : String) : String.fromUTF8? ⟨(utf8 s).toArray⟩ = some s := by
  have hb : (⟨(utf8 s).toArray⟩ : ByteArray) = s.toByteArray := rfl
  simp [hb, String.fromUTF8?, s.isValidUTF8, String.fromUTF8]

theorem decode_int (n : Int32) (rest : List UInt8) :
    decode .int (number n.toInt ++ rest) = some (.int n, rest) := by
  have hrange : -2^31 ≤ n.toInt ∧ n.toInt < 2^31 := ⟨n.le_toInt, n.toInt_lt⟩
  rw [decode, readNumber_number]
  show (if -2^31 ≤ n.toInt ∧ n.toInt < 2^31 then some (Datum.int (Int32.ofInt n.toInt), rest)
    else none) = some (.int n, rest)
  rw [if_pos hrange, Int32.ofInt_toInt]

theorem decode_long (n : Int64) (rest : List UInt8) :
    decode .long (number n.toInt ++ rest) = some (.long n, rest) := by
  have hrange : -2^63 ≤ n.toInt ∧ n.toInt < 2^63 := ⟨n.le_toInt, n.toInt_lt⟩
  rw [decode, readNumber_number]
  show (if -2^63 ≤ n.toInt ∧ n.toInt < 2^63 then some (Datum.long (Int64.ofInt n.toInt), rest)
    else none) = some (.long n, rest)
  rw [if_pos hrange, Int64.ofInt_toInt]

theorem decode_string (s : String) (rest : List UInt8) :
    decode .string (number (utf8 s).length ++ utf8 s ++ rest) = some (.string s, rest) := by
  rw [decode, List.append_assoc, readNumber_number]
  simp [fromUtf8_utf8]

mutual

/-- A datum is read back from any of its encodings, whatever follows. -/
theorem decode_encodes (schema : Schema) (d : Datum) (bytes rest : List UInt8)
    (h : Encodes schema d bytes) : decode schema (bytes ++ rest) = some (d, rest) := by
  cases schema with
  | null =>
    rw [Encodes] at h
    obtain ⟨rfl, rfl⟩ := h
    rfl
  | boolean =>
    rw [Encodes] at h
    obtain ⟨b, rfl, rfl⟩ := h
    cases b <;> rfl
  | int =>
    rw [Encodes] at h
    obtain ⟨n, rfl, rfl⟩ := h
    exact decode_int n rest
  | long =>
    rw [Encodes] at h
    obtain ⟨n, rfl, rfl⟩ := h
    exact decode_long n rest
  | string =>
    rw [Encodes] at h
    obtain ⟨s, rfl, rfl⟩ := h
    exact decode_string s rest
  | array items =>
    rw [Encodes] at h
    obtain ⟨vals, rfl, h⟩ := h
    have hread : ∀ v bytes rest, Encodes items v bytes →
        decode items (bytes ++ rest) = some (v, rest) :=
      fun v bytes rest hv => decode_encodes items v bytes rest hv
    rw [decode, readBlocks_blocks hread vals bytes h rest _ (by rw [List.length_append]; omega)]
    rfl
  | record name fields =>
    rw [Encodes] at h
    obtain ⟨vals, rfl, h⟩ := h
    rw [decode, decodeFields_encodes fields vals bytes rest h]
    rfl
  | union branches =>
    rw [Encodes] at h
    obtain ⟨i, v, body, rfl, rfl, h⟩ := h
    have hv := decodeBranch_encodes branches i v body rest h
    rw [decode, List.append_assoc, readNumber_number]
    simp [hv]

theorem decodeFields_encodes (fields : List (String × Schema)) (vals : List (String × Datum))
    (bytes rest : List UInt8) (h : EncodesFields fields vals bytes) :
    decodeFields fields (bytes ++ rest) = some (vals, rest) := by
  cases fields with
  | nil =>
    rw [EncodesFields] at h
    obtain ⟨rfl, rfl⟩ := h
    rfl
  | cons field fields =>
    obtain ⟨name, schema⟩ := field
    rw [EncodesFields] at h
    obtain ⟨v, more, front, back, rfl, rfl, hv, hmore⟩ := h
    rw [decodeFields, List.append_assoc, decode_encodes schema v front _ hv]
    have hmore := decodeFields_encodes fields more back rest hmore
    simp [hmore]

theorem decodeBranch_encodes (branches : List Schema) (i : ℕ) (d : Datum) (bytes rest : List UInt8)
    (h : EncodesBranch branches i d bytes) :
    decodeBranch branches i (bytes ++ rest) = some (d, rest) := by
  cases branches with
  | nil => exact absurd h (by simp [EncodesBranch])
  | cons branch branches =>
    cases i with
    | zero =>
      rw [EncodesBranch] at h
      exact decode_encodes branch d bytes rest h
    | succ i =>
      rw [EncodesBranch] at h
      exact decodeBranch_encodes branches i d bytes rest h

end

mutual

def encode : Datum → List UInt8
  | .null => []
  | .boolean b => [boolByte b]
  | .int n => number n.toInt
  | .long n => number n.toInt
  | .string s => number (utf8 s).length ++ utf8 s
  | .array [] => number 0
  | .array (v::vals) => number (v::vals).length ++ (encode v ++ encodeItems vals ++ number 0)
  | .record _ fields => encodeFields fields
  | .union i d => number i ++ encode d

def encodeItems : List Datum → List UInt8
  | [] => []
  | v::vals => encode v ++ encodeItems vals

def encodeFields : List (String × Datum) → List UInt8
  | [] => []
  | (_, v)::vals => encode v ++ encodeFields vals

end

theorem encodes_array (items : Schema) (vals : List Datum)
    (h : ∀ v ∈ vals, Encodes items v (encode v)) :
    Encodes (.array items) (.array vals) (encode (.array vals)) := by
  have hitems : Items (Encodes items) vals (encodeItems vals) := by
    induction vals with
    | nil => exact .nil
    | cons v vals ih =>
      rw [encodeItems]
      exact .cons v vals _ _ (h v (by simp)) (ih (fun w hw => h w (List.mem_cons_of_mem v hw)))
  rw [Encodes]
  refine ⟨vals, rfl, ?_⟩
  cases vals with
  | nil =>
    rw [encode]
    exact .done
  | cons v vals =>
    have hblock := Blocks.counted (v::vals) [] _ _ (by simp) hitems .done
    rwa [List.append_nil, encodeItems] at hblock

end CDC.AvroCodec
