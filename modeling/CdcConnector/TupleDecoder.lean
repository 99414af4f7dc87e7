import CdcConnector.RelationDecoder

/-!
# Tuple data

Full rows and key tuples share the value decoder. Both tuple decoders have
unrolled loops for one to six columns and a general loop for every other
count. The key loop walks over all columns with a second index into the key
list; the general loop of the key decoder does not.
-/

set_option autoImplicit false

namespace CDC.TupleDecoder
open CDC.Fallible CDC.Event CDC.Decoder CDC.RelationDecoder

def parseI64 (l : ℕ) (data : Bytes) : Decoded Int64 := do
  if l ≠ 8 then fail (.wrongFieldKind .int8)
  else if data.length < 13 then fail .truncatedInput
  else
    let n ← readU64 data 5
    return n.toInt64

def parseBinary (data : Bytes) (kind : FieldKind) (l : ℕ) : Decoded PgValue := do
  match kind with
  | .int4 =>
    if l ≠ 4 then fail (.wrongFieldKind .int4)
    else if data.length < 9 then fail .truncatedInput
    else
      let n ← readU32 data 5
      return .int4 n.toInt32
  | .text =>
    let bytes ← slice data 5 (5 + l)
    let s ← fromUtf8 bytes
    return .text s
  | .int8 =>
    let n ← parseI64 l data
    return .int8 n
  | .bool =>
    if l ≠ 1 then fail (.wrongFieldKind .bool)
    else if data.length < 6 then fail .truncatedInput
    else
      let b ← index data 5
      return .bool (b ≠ 0)
  | .timestamp =>
    let n ← parseI64 l data
    return .timestamp n

def parseValue {F : Type} [FieldAccess F] (data : Bytes) (field : F) (isUpdate : Bool) :
    Decoded (PgValue × ℕ) := do
  if data.isEmpty then fail .truncatedInput
  else
    let tag ← index data 0
    if tag = tagNull then return (.null, 1)
    else if tag = tagToasted then
      if isUpdate then return (.toasted, 1) else fail .toastedValueOnNonUpdate
    else if tag = tagText then
      if data.length < 5 then fail .truncatedInput
      else
        let l ← readU32 data 1
        if data.length < 5 + l.toNat then fail .truncatedInput
        else
          let bytes ← slice data 5 (5 + l.toNat)
          let s ← fromUtf8 bytes
          return (.text s, 5 + l.toNat)
    else if tag = tagBinary then
      if data.length < 5 then fail .truncatedInput
      else
        let l ← readU32 data 1
        let value ← parseBinary data (FieldAccess.getKind field) l.toNat
        return (value, 5 + l.toNat)
    else fail (.wrongColTypeKey tag)

/-- The unrolled row loop over the fields that are left. -/
def numCols (data : Bytes) (isUpdate : Bool) : List Field → ℕ → List PgValue →
    Decoded (List PgValue × ℕ)
  | [], lastPos, cols => return (cols, lastPos)
  | field::fields, lastPos, cols => do
    let rest ← sliceFrom data lastPos
    let (value, len) ← parseValue rest field isUpdate
    numCols data isUpdate fields (lastPos + len) (cols ++ [value])

/-- The general row loop, with `left` columns to go from column `i` on. -/
def anyCols {F : Type} [FieldAccess F] (data : Bytes) (fields : List F) (isUpdate : Bool) :
    ℕ → ℕ → ℕ → List PgValue → Decoded (List PgValue × ℕ)
  | 0, _, lastPos, cols => return (cols, lastPos)
  | left+1, i, lastPos, cols => do
    let rest ← sliceFrom data lastPos
    let field ← index fields i
    let (value, len) ← parseValue rest field isUpdate
    anyCols data fields isUpdate left (i+1) (lastPos + len) (cols ++ [value])

def parse (data : Bytes) (fields : List Field) (isUpdate : Bool) :
    Decoded (List PgValue × ℕ) := do
  if data.length < 2 then fail .truncatedInput
  else
    let nCols ← readU16 data 0
    -- the field count is cut to sixteen bits before the comparison
    if nCols > fields.length % 2^16 then fail .corruptedInput
    else if 1 ≤ nCols ∧ nCols ≤ 6 then numCols data isUpdate (fields.take nCols) 2 []
    else anyCols data fields isUpdate nCols 0 2 []

/-- The unrolled key loop, with `left` columns to go from column `i` on. -/
def keyCols (data : Bytes) (fields : List KeyField) (indexes : List ℕ) (totalFields : ℕ) :
    ℕ → ℕ → ℕ → ℕ → List PgValue → Decoded (List PgValue × ℕ)
  | 0, _, _, lastPos, cols => return (cols, lastPos)
  | left+1, i, keyIdx, lastPos, cols => do
    let nextKey ← index indexes keyIdx
    if i = nextKey then
      let rest ← sliceFrom data lastPos
      let field ← index fields keyIdx
      let (value, len) ← parseValue rest field false
      let lastKey ← subtract indexes.length 1
      -- the column is compared with the last key index, not the key index
      if i < lastKey then
        keyCols data fields indexes totalFields left (i+1) (keyIdx+1) (lastPos + len)
          (cols ++ [value])
      else
        let size ← subtract (lastPos + len + totalFields) i
        return (cols ++ [value], size)
    else keyCols data fields indexes totalFields left (i+1) keyIdx (lastPos + 1) cols

def parseKeys (data : Bytes) (fields : List KeyField) (indexes : List ℕ) (totalFields : ℕ) :
    Decoded (List PgValue × ℕ) := do
  if data.length < 2 then fail .truncatedInput
  else
    let nCols ← readU16 data 0
    if nCols > totalFields then fail .corruptedInput
    else if 1 ≤ nCols ∧ nCols ≤ 6 then keyCols data fields indexes totalFields nCols 0 0 2 []
    else anyCols data fields false nCols 0 2 []

end CDC.TupleDecoder
