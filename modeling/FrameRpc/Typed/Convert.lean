import FrameRpc.Typed.Shape

/-!
# Shapes and dynamic values

`Shape.ofValue` takes a dynamic value as a shape, with the mismatches that reading its bytes would
give, and `Shape.toValue` turns a value of a shape into a dynamic one. A record is taken from an
object, whose unknown fields are ignored, or from a list of its fields in order, and becomes an
object. An infinity or NaN becomes null.

Values under keys become an object when every key is a text or can be spelled as one
(`objectOfEntries`).
-/

namespace FrameRpc

/-- The outside of a dynamic value. -/
def Value.item : Value → Item
  | .null => .nil
  | .bool b => .bool b
  | .int n =>
    if 0 ≤ n.toInt then .unsigned (UInt64.ofNat n.toInt.toNat) else .signed (Int64.ofInt n.toInt)
  | .float x => .float x.val
  | .text s => .text s
  | .list _ => .sequence
  | .object _ => .map

namespace Scalar

/-- The dynamic value of a scalar. -/
def toValue : (s : Scalar) → s.Carrier → Value
  | .u8, n => .ofNat n.toNat
  | .u32, n => .ofNat n.toNat
  | .i64, n => .int (.ofSigned n)
  | .f64, x => .ofFloat x
  | .bool, b => .bool b
  | .text, s => .text s
  | .action, a => .text a.tag

end Scalar

/-- The dynamic value of a slot, unless it is left out. -/
def Slot.toValue? : (k : Slot) → k.Carrier → Option Value
  | .required s, v => some (s.toValue v)
  | .defaulted s _, v => some (s.toValue v)
  | .optional _, none => none
  | .optional s, some v => some (s.toValue v)

/-- Sets the fields of a record from the fields of an object, in their order. -/
def Draft.ofFields {fields : List RecordField} (d : Draft fields) :
    Fields → Except Mismatch (Draft fields)
  | [] => .ok d
  | (name, v) :: rest =>
    match fieldWhere (· == name) fields with
    | none => Draft.ofFields d rest
    | some i => do
      if (d i).isSome then .error (.duplicateField (fields.get i).name)
      else
        let a ← (fields.get i).slot.accept v.item
        Draft.ofFields (d.set i a) rest

namespace RecordType

/-- A dynamic value as a record. -/
def ofValue (r : RecordType) : Value → Except Mismatch (Row r.fields)
  | .list items => do
    let (row, left) ← Row.ofItems r r.fields 0 (items.map Value.item)
    if left = 0 then return row else .error (.wrongLength items.length .fewerElements)
  | .object fields => do
    let d ← Draft.ofFields (.empty r.fields) fields
    d.complete
  | v => .error (.wrongType v.item (.record r.name))

/-- The fields of the object that a record becomes, set one after the other. -/
def setFields : (fields : List RecordField) → Row fields → Fields → Fields
  | [], _, object => object
  | f :: fs, (v, row), object =>
    match f.slot.toValue? v with
    | some v => setFields fs row (object.insert f.name v)
    | none => setFields fs row object

/-- The object of a record. -/
def toValue (r : RecordType) (row : Row r.fields) : Value :=
  .object (setFields r.fields row [])

end RecordType

/-- The octets that the items of a list are. -/
def octetsOf (items : List Value) : Except Mismatch (List UInt8) :=
  items.mapM fun v => Scalar.u8.accept v.item

namespace Shape

/-- A dynamic value as a shape. -/
def ofValue : (s : Shape) → Value → Except Mismatch s.Carrier
  | .dynamic, v => .ok v
  | .scalar s, v => s.accept v.item
  | .optional s, v =>
    match v with
    | .null => .ok none
    | v => (s.accept v.item).map some
  | .octets, v =>
    match v with
    | .list items => octetsOf items
    | v => .error (.wrongType v.item .sequence)
  | .record r, v => r.ofValue v

/-- The dynamic value of a value of a shape. -/
def toValue : (s : Shape) → s.Carrier → Value
  | .dynamic, v => v
  | .scalar s, a => s.toValue a
  | .optional _, none => .null
  | .optional s, some a => s.toValue a
  | .octets, bs => .list (bs.map fun b => .ofNat b.toNat)
  | .record r, row => r.toValue row

end Shape

/-- The name that a key of a map is spelled as. Lists, maps, byte strings and nil have none. -/
def Item.keyName : Item → Except Mismatch String
  | .text s => .ok s
  | .bool b => .ok (if b then "true" else "false")
  | .unsigned n => .ok (toString n.toNat)
  | .signed n => .ok (toString n.toInt)
  | _ => .error .keyNotText

/-- The object of values under keys; of two values under one name the later stays. -/
def objectOfEntries (entries : List (Item × Value)) : Except Mismatch Value := do
  let named ← entries.mapM fun e => return (← e.1.keyName, e.2)
  return .object (Fields.ofList named)

end FrameRpc
