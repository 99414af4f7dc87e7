import Mathlib.Data.List.Forall2
import CdcConnector.TupleSyntax

/-!
# Tuples as the server writes them

A datum is a binary value of one of the supported kinds. Written items are
read back exactly, whatever bytes follow; so are written rows, by the
unrolled loops and by the general one.
-/

set_option autoImplicit false

namespace CDC.TupleGrammar
open CDC.Fallible CDC.Event CDC.Decoder CDC.RelationDecoder CDC.TupleDecoder
  CDC.TupleSyntax

inductive Datum where
  | int4 (n : Int32)
  | text (s : String)
  | int8 (n : Int64)
  | bool (b : Bool)
  | timestamp (t : Int64)
  deriving DecidableEq

namespace Datum

def kind : Datum → FieldKind
  | int4 _ => .int4
  | text _ => .text
  | int8 _ => .int8
  | bool _ => .bool
  | timestamp _ => .timestamp

def payload : Datum → Bytes
  | int4 n => BigEndian.toBytes 4 n.toUInt32.toNat
  | text s => utf8Bytes s
  | int8 n => BigEndian.toBytes 8 n.toUInt64.toNat
  | bool b => [if b then 1 else 0]
  | timestamp t => BigEndian.toBytes 8 t.toUInt64.toNat

def value : Datum → PgValue
  | int4 n => .int4 n
  | text s => .text s
  | int8 n => .int8 n
  | bool b => .bool b
  | timestamp t => .timestamp t

end Datum

inductive Item where
  | null
  | toasted
  | text (s : String)
  | binary (d : Datum)
  deriving DecidableEq

namespace Item

def bytes : Item → Bytes
  | null => [tagNull]
  | toasted => [tagToasted]
  | text s => tagText :: (BigEndian.toBytes 4 (utf8Bytes s).length ++ utf8Bytes s)
  | binary d => tagBinary :: (BigEndian.toBytes 4 d.payload.length ++ d.payload)

def value : Item → PgValue
  | null => .null
  | toasted => .toasted
  | text s => .text s
  | binary d => d.value

def Fits (kind : FieldKind) : Item → Prop
  | null => True
  | toasted => True
  | text s => (utf8Bytes s).length < 2^32
  | binary d => d.payload.length < 2^32 ∧ d.kind = kind

def present : Item → Bool
  | text _ => true
  | binary _ => true
  | _ => false

end Item

theorem twosComplement_int32 (n : Int32) :
    twosComplement (BigEndian.toBytes 4 n.toUInt32.toNat) = n.toInt := by
  have hn : BigEndian.ofBytes (BigEndian.toBytes 4 n.toUInt32.toNat) = n.toUInt32.toNat :=
    BigEndian.ofBytes_toBytes 4 _ (by simpa using n.toUInt32.toNat_lt)
  rw [← toInt32_bytes _ (BigEndian.toBytes_length 4 _), hn, UInt32.ofNat_toNat]
  rfl

theorem twosComplement_int64 (n : Int64) :
    twosComplement (BigEndian.toBytes 8 n.toUInt64.toNat) = n.toInt := by
  have hn : BigEndian.ofBytes (BigEndian.toBytes 8 n.toUInt64.toNat) = n.toUInt64.toNat :=
    BigEndian.ofBytes_toBytes 8 _ (by simpa using n.toUInt64.toNat_lt)
  rw [← toInt64_bytes _ (BigEndian.toBytes_length 8 _), hn, UInt64.ofNat_toNat]
  rfl

theorem Datum.payload_value (d : Datum) : Payload d.kind d.payload d.value := by
  cases d with
  | int4 n => exact ⟨rfl, BigEndian.toBytes_length 4 _, (twosComplement_int32 n).symm⟩
  | text s => exact ⟨rfl, rfl⟩
  | int8 n => exact ⟨rfl, BigEndian.toBytes_length 8 _, (twosComplement_int64 n).symm⟩
  | bool b => exact ⟨rfl, _, rfl, by cases b <;> decide⟩
  | timestamp t => exact ⟨rfl, BigEndian.toBytes_length 8 _, (twosComplement_int64 t).symm⟩

theorem Item.itemOf (kind : FieldKind) (isUpdate : Bool) (item : Item) (hfits : item.Fits kind)
    (htoast : item = .toasted → isUpdate = true) : ItemOf isUpdate kind item.bytes item.value := by
  have hlen : ∀ payload : Bytes, payload.length < 2^32 →
      BigEndian.ofBytes (BigEndian.toBytes 4 payload.length) = payload.length := fun payload h =>
    BigEndian.ofBytes_toBytes 4 _ (by simpa using h)
  cases item with
  | null => exact .null
  | toasted => exact .toasted (htoast rfl)
  | text s => exact .text _ s (BigEndian.toBytes_length 4 _) (hlen _ hfits)
  | binary d =>
    obtain ⟨hfit, rfl⟩ := hfits
    exact .binary _ _ _ (BigEndian.toBytes_length 4 _) (hlen _ hfit) d.payload_value

section Reading
variable {F : Type} [FieldAccess F]

theorem parseValue_item (field : F) (isUpdate : Bool) (item : Item) (rest : Bytes)
    (hfits : item.Fits (FieldAccess.getKind field)) (htoast : item = .toasted → isUpdate = true) :
    parseValue (item.bytes ++ rest) field isUpdate = .ok (item.value, item.bytes.length) :=
  (parseValue_ok_iff _ _ _ _ _).mpr
    ⟨item.bytes, rest, rfl, rfl, item.itemOf _ isUpdate hfits htoast⟩

def Written (isUpdate : Bool) (field : F) (item : Item) : Prop :=
  item.Fits (FieldAccess.getKind field) ∧ (item = .toasted → isUpdate = true)

theorem anyCols_reads (fields : List F) (isUpdate : Bool) (rest : Bytes) (left : List F)
    (items : List Item) (hitems : List.Forall₂ (Written isUpdate) left items) (i : ℕ)
    (hleft : fields.drop i = left) (pre : Bytes) (cols : List PgValue) :
    anyCols (pre ++ (items.flatMap Item.bytes ++ rest)) fields isUpdate items.length i pre.length
        cols =
      .ok (cols ++ items.map Item.value, pre.length + (items.flatMap Item.bytes).length) := by
  induction hitems generalizing i pre cols with
  | nil => simp [anyCols]
  | @cons field item left items hfirst _ ih =>
    have hfield : (index fields i : Decoded F) = .ok field := by
      have hi : fields[i]? = some field := by
        rw [← List.head?_drop, hleft, List.head?_cons]
      simp [index, hi]
    have hnext : fields.drop (i+1) = left := by
      rw [← List.tail_drop, hleft, List.tail_cons]
    have hrest : pre ++ ((item::items).flatMap Item.bytes ++ rest) =
        (pre ++ item.bytes) ++ (items.flatMap Item.bytes ++ rest) := by simp
    have htail : (sliceFrom (pre ++ ((item::items).flatMap Item.bytes ++ rest)) pre.length :
        Decoded Bytes) = .ok (item.bytes ++ (items.flatMap Item.bytes ++ rest)) := by
      rw [hrest, List.append_assoc]
      exact sliceFrom_append _ _
    have hvalue := parseValue_item field isUpdate item (items.flatMap Item.bytes ++ rest)
      hfirst.1 hfirst.2
    simp only [List.length_cons, anyCols, htail, hfield, hvalue, ok_bind]
    rw [hrest, ← List.length_append, ih (i+1) hnext (pre ++ item.bytes) (cols ++ [item.value])]
    simp [Nat.add_assoc]

end Reading

theorem written_itemsOf (isUpdate : Bool) (fields : List Field) (items : List Item)
    (h : List.Forall₂ (Written isUpdate) fields items) :
    ItemsOf isUpdate fields (items.flatMap Item.bytes) (items.map Item.value) := by
  induction h with
  | nil => exact .nil
  | @cons field item fields items hfirst _ ih =>
    exact .cons field fields _ _ _ _ (item.itemOf _ isUpdate hfirst.1 hfirst.2) ih

def tupleBytes (items : List Item) : Bytes :=
  BigEndian.toBytes 2 items.length ++ items.flatMap Item.bytes

theorem tupleBytes_length (items : List Item) :
    (tupleBytes items).length = 2 + (items.flatMap Item.bytes).length := by
  simp [tupleBytes]

theorem readU16_tuple (items : List Item) (rest : Bytes) (h : items.length < 2^16) :
    readU16 (tupleBytes items ++ rest) 0 = .ok items.length := by
  have hr := readU16_at [] (items.flatMap Item.bytes ++ rest) items.length h 0 rfl
  simpa [tupleBytes] using hr

theorem parse_tuple (fields : List Field) (isUpdate : Bool) (items : List Item) (rest : Bytes)
    (hlt : fields.length < 2^16) (hitems : List.Forall₂ (Written isUpdate) fields items) :
    TupleDecoder.parse (tupleBytes items ++ rest) fields isUpdate =
      .ok (items.map Item.value, (tupleBytes items).length) := by
  have hlen : items.length = fields.length := hitems.length_eq.symm
  have hcount : BigEndian.ofBytes (BigEndian.toBytes 2 items.length) = fields.length := by
    rw [hlen]
    exact BigEndian.ofBytes_toBytes 2 _ hlt
  have htuple : TupleOf isUpdate fields (tupleBytes items) (items.map Item.value) := by
    refine ⟨_, _, rfl, BigEndian.toBytes_length 2 _, hcount.le, ?_⟩
    rw [hcount, List.take_length]
    exact written_itemsOf isUpdate fields items hitems
  exact (parse_ok_iff fields (by omega) isUpdate _ _ _).mpr ⟨_, rest, rfl, rfl, htuple⟩

end CDC.TupleGrammar
