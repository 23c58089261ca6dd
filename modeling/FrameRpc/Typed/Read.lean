import FrameRpc.MessagePack.Dynamic
import FrameRpc.MessagePack.Write
import FrameRpc.Typed.Shape

/-!
# Reading and writing shapes

`Shape.read` reads the value at the front as a given shape, `Shape.write` writes it. A record is
written as a map from its field names. It is read from a map in any order, whose keys may also be
byte strings or positions, or from a list of its fields in order, or from a byte string as the
list of its octets. Entries of a map that belong to no field are passed over; a repeated field is
an error as soon as its key is read, a missing one at the end.

Numbers and truth values look at the marker first: a marker of another kind is an error before
anything behind it is read.
-/

namespace FrameRpc

open MessagePack

namespace Scalar

/-- Reads a scalar with `budget` containers to open. -/
def read (s : Scalar) (budget : Nat) : Reader s.Carrier := fun bs => do
  let (m, rest) ← takeMarker bs
  if s.isNumeric && !m.isScalar then .error (.wrongMarker m)
  else
    let (t, rest) ← m.token rest
    let (item, rest) ← t.item budget rest
    match s.accept item with
    | .ok a => return (a, rest)
    | .error m => .error (.at item m)

/-- The encoding of a scalar. -/
def write : (s : Scalar) → s.Carrier → Bytes
  | .u8, n => writeNat n.toNat
  | .u32, n => writeNat n.toNat
  | .i64, n => writeInt n.toInt
  | .f64, x => writeFloat x
  | .bool, b => writeBool b
  | .text, s => writeText s
  | .action, a => writeText a.tag

end Scalar

/-- Reads a scalar, or nothing where nil stands. -/
def readOptional (s : Scalar) (budget : Nat) : Reader (Option s.Carrier) := fun bs => do
  let (m, rest) ← takeMarker bs
  match m with
  | .nil => return (none, rest)
  | _ =>
    let (a, rest) ← s.read budget bs
    return (some a, rest)

/-- The encoding of a scalar, or nil for nothing. -/
def writeOptional (s : Scalar) : Option s.Carrier → Bytes
  | none => writeNil
  | some a => s.write a

namespace Slot

/-- Reads a slot with `budget` containers to open. -/
def read (k : Slot) (budget : Nat) : Reader k.Carrier :=
  match k with
  | .required s => s.read budget
  | .defaulted s _ => s.read budget
  | .optional s => readOptional s budget

/-- The encoding of a slot, unless it is left out. -/
def write? : (k : Slot) → k.Carrier → Option Bytes
  | .required s, v => some (s.write v)
  | .defaulted s _, v => some (s.write v)
  | .optional _, none => none
  | .optional s, some v => some (s.write v)

end Slot

/-! ## Records -/

/-- Reads the fields of a record from the items of a list, of which `left` remain; also tells how
    many remain behind the fields. -/
def readRow (r : RecordType) (budget : Nat) : (fields : List RecordField) → (index left : Nat) →
    Reader (Row fields × Nat)
  | [], _, left, bs => .ok (((), left), bs)
  | f :: fs, index, 0, bs => do
    let v ← match f.slot.absent with
      | some v => .ok v
      | none => .error (.mismatch (.wrongLength index (.elements r.name r.fields.length)))
    let ((rest, left), bs) ← readRow r budget fs (index + 1) 0 bs
    return (((v, rest), left), bs)
  | f :: fs, index, left + 1, bs => do
    let (v, bs) ← f.slot.read budget bs
    let ((rest, left), bs) ← readRow r budget fs (index + 1) left bs
    return (((v, rest), left), bs)

/-- The field that the key at the front stands for. -/
def readKey (fields : List RecordField) (budget : Nat) : Reader (Option (Fin fields.length)) :=
  fun bs => do
    let (t, rest) ← readToken bs
    let (item, rest) ← t.item budget rest
    match fieldOfKey fields item with
    | .ok i => return (i, rest)
    | .error m => .error (.at item m)

/-- Reads the entries of a map into the fields already read. -/
def readDraft (fields : List RecordField) (budget : Nat) (d : Draft fields) :
    Nat → Reader (Draft fields)
  | 0, bs => .ok (d, bs)
  | n + 1, bs => do
    let (key, rest) ← readKey fields budget bs
    match key with
    | none =>
      let (_, rest) ← skipValue budget rest
      readDraft fields budget d n rest
    | some i =>
      if (d i).isSome then .error (.mismatch (.duplicateField (fields.get i).name))
      else
        let (v, rest) ← (fields.get i).slot.read budget rest
        readDraft fields budget (d.set i v) n rest

/-- A record without items left over. -/
def exactly {r : RecordType} (row : Row r.fields × Nat) : Except ReadError (Row r.fields) :=
  if row.2 = 0 then .ok row.1 else .error (.excess r.fields.length)

/-- Reads a record with `budget` containers to open. -/
def RecordType.read (r : RecordType) (budget : Nat) : Reader (Row r.fields) := fun bs => do
  let (t, rest) ← readToken bs
  match t with
  | .list n =>
    let budget ← enter budget
    let (row, rest) ← readRow r budget r.fields 0 n rest
    let row ← exactly row
    return (row, rest)
  | .map n =>
    let budget ← enter budget
    let (d, rest) ← readDraft r.fields budget (.empty r.fields) n rest
    match d.complete with
    | .ok row => return (row, rest)
    | .error m => .error (.mismatch m)
  | .bytes n =>
    let (body, rest) ← takeBody n rest
    match Row.ofItems r r.fields 0 (body.map fun b => .unsigned b.toUInt64) with
    | .ok row =>
      let row ← exactly row
      return (row, rest)
    | .error m => .error (.mismatch m)
  | t =>
    let (item, _) ← t.item budget rest
    .error (refuse item (.record r.name))

/-- The number of fields that are written. -/
def Row.count : (fields : List RecordField) → Row fields → Nat
  | [], _ => 0
  | f :: fs, (v, row) => (if (f.slot.write? v).isSome then 1 else 0) + Row.count fs row

/-- The encodings of the fields that are written, each name before its value. -/
def Row.writeFields : (fields : List RecordField) → Row fields → Bytes
  | [], _ => []
  | f :: fs, (v, row) =>
    match f.slot.write? v with
    | some bs => writeText f.name ++ (bs ++ Row.writeFields fs row)
    | none => Row.writeFields fs row

/-- The encoding of a record, a map from its field names. -/
def RecordType.write (r : RecordType) (row : Row r.fields) : Bytes :=
  mapHead (Row.count r.fields row) ++ Row.writeFields r.fields row

/-! ## Shapes -/

/-- Reads a list of octets, from a list or from a byte string. -/
def readOctets (budget : Nat) : Reader (List UInt8) := fun bs => do
  let (t, rest) ← readToken bs
  match t with
  | .list n =>
    let budget ← enter budget
    readMany (Scalar.u8.read budget) n rest
  | .bytes n => takeBody n rest
  | t =>
    let (item, _) ← t.item budget rest
    .error (refuse item .sequence)

namespace Shape

/-- Reads the value at the front as a shape. -/
def read : (s : Shape) → Reader s.Carrier
  | .dynamic => readValue maxDepth
  | .scalar s => s.read maxDepth
  | .optional s => readOptional s maxDepth
  | .octets => readOctets maxDepth
  | .record r => r.read maxDepth

/-- The encoding of a value of a shape. -/
def write : (s : Shape) → s.Carrier → Bytes
  | .dynamic, v => MessagePack.write v
  | .scalar s, a => s.write a
  | .optional s, a => writeOptional s a
  | .octets, bs => listHead bs.length ++ bs.flatMap fun b => writeNat b.toNat
  | .record r, row => r.write row

end Shape

end FrameRpc
