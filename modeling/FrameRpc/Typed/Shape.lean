import FrameRpc.Action
import FrameRpc.Mismatch
import FrameRpc.Value.Basic

/-!
# Shapes

A *shape* is what a reader may ask for instead of a dynamic value: a scalar, an optional scalar, a
string of octets, or a record of named scalars. Every shape has a `Carrier`, the type of the
values that it holds, so that what is read under a shape is typed.

The fields of a record are *slots*. A required slot has to be present; a defaulted one stands for
its default when absent; an optional one holds nothing when absent or nil, and is left out when
the record is written.

Scalars are judged by the outside of a value alone (`Scalar.accept`), which is the same whether
the value comes from bytes or from a dynamic value.
-/

namespace FrameRpc

/-- A type of single values. -/
inductive Scalar where
  | u8 | u32 | i64 | f64 | bool | text | action
  deriving DecidableEq, Repr

namespace Scalar

/-- The values of a scalar type. -/
@[reducible]
def Carrier : Scalar → Type
  | .u8 => UInt8
  | .u32 => UInt32
  | .i64 => Int64
  | .f64 => Binary64
  | .bool => Bool
  | .text => String
  | .action => Action

/-- How a message names the type. -/
def expected : Scalar → Expected
  | .u8 => .u8
  | .u32 => .u32
  | .i64 => .i64
  | .f64 => .f64
  | .bool => .boolean
  | .text => .string
  | .action => .actionTag

/-- Numbers and truth values. -/
def isNumeric : Scalar → Bool
  | .text | .action => false
  | _ => true

end Scalar

/-- The integer that an item is, in either form. -/
def Item.int? : Item → Option Int
  | .unsigned n => some n.toNat
  | .signed n => some n.toInt
  | _ => none

/-- The integer that an item is, within bounds. -/
def Item.intWithin (item : Item) (low high : Int) (expected : Expected) : Except Mismatch Int :=
  match item.int? with
  | some i => if low ≤ i ∧ i < high then .ok i else .error (.wrongValue item expected)
  | none => .error (.wrongType item expected)

/-- The action whose tag this is. -/
def Action.ofText (s : String) : Except Mismatch Action :=
  match Action.ofTag? s with
  | some a => .ok a
  | none => .error (.unknownAction s)

/-- The action that an item names. Tags may be byte strings. -/
def Item.asAction : Item → Except Mismatch Action
  | .text s => Action.ofText s
  | .bytes bs =>
    match Utf8.decode bs with
    | .ok s => Action.ofText s
    | .error why => .error (.malformedTag why)
  | item => .error (.wrongType item .actionTag)

/-- The floating-point number that an item is. Integers are rounded to the nearest one. -/
def Item.asFloat : Item → Except Mismatch Binary64
  | .float x => .ok x
  | .unsigned n => .ok (.ofInt n.toNat)
  | .signed n => .ok (.ofInt n.toInt)
  | item => .error (.wrongType item .f64)

/-- The truth value that an item is. -/
def Item.asBool : Item → Except Mismatch Bool
  | .bool b => .ok b
  | item => .error (.wrongType item .boolean)

/-- The value of a scalar type that an item is. -/
def Scalar.accept : (s : Scalar) → Item → Except Mismatch s.Carrier
  | .u8, item => (item.intWithin 0 0x100 .u8).map fun i => UInt8.ofNat i.toNat
  | .u32, item => (item.intWithin 0 0x100000000 .u32).map fun i => UInt32.ofNat i.toNat
  | .i64, item => (item.intWithin (-0x8000000000000000) 0x8000000000000000 .i64).map Int64.ofInt
  | .f64, item => item.asFloat
  | .bool, item => item.asBool
  | .text, item => item.asText
  | .action, item => item.asAction

/-- How a field of a record behaves when it is absent. -/
inductive Slot where
  /-- It has to be present. -/
  | required (s : Scalar)
  /-- It has a value all the same. -/
  | defaulted (s : Scalar) (value : s.Carrier)
  /-- It holds nothing, as when it is nil; and holding nothing it is not written. -/
  | optional (s : Scalar)

namespace Slot

/-- The values of a slot. -/
@[reducible]
def Carrier : Slot → Type
  | .required s => s.Carrier
  | .defaulted s _ => s.Carrier
  | .optional s => Option s.Carrier

/-- The value of an absent slot. -/
def absent : (k : Slot) → Option k.Carrier
  | .required _ => none
  | .defaulted _ v => some v
  | .optional _ => some none

/-- The value of a slot that an item is. -/
def accept : (k : Slot) → Item → Except Mismatch k.Carrier
  | .required s, item => s.accept item
  | .defaulted s _, item => s.accept item
  | .optional s, item =>
    match item with
    | .nil => .ok none
    | item => (s.accept item).map some

end Slot

/-- A field of a record. -/
structure RecordField where
  /-- The name. -/
  name : String
  /-- What it holds. -/
  slot : Slot

/-- The values of the fields of a record, in order. -/
@[reducible]
def Row : List RecordField → Type
  | [] => Unit
  | f :: fs => f.slot.Carrier × Row fs

/-- A record type. -/
structure RecordType where
  /-- The name, for messages. -/
  name : String
  /-- The fields in order. -/
  fields : List RecordField

/-- What a reader asks for. -/
inductive Shape where
  /-- Whatever is there. -/
  | dynamic
  | scalar (s : Scalar)
  /-- A scalar, or nothing for nil. -/
  | optional (s : Scalar)
  /-- A list of octets. -/
  | octets
  | record (r : RecordType)

/-- The values of a shape. -/
@[reducible]
def Shape.Carrier : Shape → Type
  | .dynamic => Value
  | .scalar s => s.Carrier
  | .optional s => Option s.Carrier
  | .octets => List UInt8
  | .record r => Row r.fields

/-! ## Records under construction -/

/-- The fields of a record that have been read so far. -/
abbrev Draft (fields : List RecordField) :=
  (i : Fin fields.length) → Option (fields.get i).slot.Carrier

namespace Draft

/-- Nothing has been read. -/
def empty (fields : List RecordField) : Draft fields := fun _ => none

/-- Sets a field. -/
def set {fields : List RecordField} (d : Draft fields) (i : Fin fields.length)
    (v : (fields.get i).slot.Carrier) : Draft fields :=
  fun j => if h : j = i then some (h ▸ v) else d j

/-- The record, when every absent field may be absent; the first that may not is missing. -/
def complete : {fields : List RecordField} → Draft fields → Except Mismatch (Row fields)
  | [], _ => .ok ()
  | f :: fs, d => do
    let v ← match (d ⟨0, Nat.zero_lt_succ fs.length⟩ : Option f.slot.Carrier) with
      | some v => .ok v
      | none =>
        match f.slot.absent with
        | some v => .ok v
        | none => .error (.missingField f.name)
    let rest ← @complete fs fun i => d i.succ
    return (v, rest)

end Draft

/-- The position of the first field of a name that `isName` accepts. -/
def fieldWhere (isName : String → Bool) (fields : List RecordField) : Option (Fin fields.length) :=
  fields.findFinIdx? fun f => isName f.name

/-- The field that a key of a map stands for: by its name, as a text or as bytes, or by its
    position, as an unsigned integer. Other texts, bytes and positions stand for no field. -/
def fieldOfKey (fields : List RecordField) : Item → Except Mismatch (Option (Fin fields.length))
  | .text s => .ok (fieldWhere (· == s) fields)
  | .bytes bs | .malformed bs _ => .ok (fieldWhere (Utf8.encode · == bs) fields)
  | .unsigned n => .ok (if h : n.toNat < fields.length then some ⟨n.toNat, h⟩ else none)
  | item => .error (.wrongType item .fieldName)

/-- The record whose fields are these items, in order, and how many items are left. Fields behind
    the last item may be absent; `index` counts the fields before the first one. -/
def Row.ofItems (r : RecordType) : (fields : List RecordField) → (index : Nat) → List Item →
    Except Mismatch (Row fields × Nat)
  | [], _, items => .ok ((), items.length)
  | f :: fs, index, [] => do
    let v ← match f.slot.absent with
      | some v => .ok v
      | none => .error (.wrongLength index (.elements r.name r.fields.length))
    let (rest, left) ← Row.ofItems r fs (index + 1) []
    return ((v, rest), left)
  | f :: fs, index, item :: items => do
    let v ← f.slot.accept item
    let (rest, left) ← Row.ofItems r fs (index + 1) items
    return ((v, rest), left)

end FrameRpc
