import FrameRpc.MessagePack.Token
import FrameRpc.Value.Basic

/-!
# Reading dynamic values

`readValue` reads whatever value stands at the front, in any form that MessagePack allows for it,
as a dynamic value. Byte strings and extensions are no dynamic values. Infinities and NaN become
null. The first name of an object has to be a text; later ones may also be byte strings, and of
two fields with one name the later stays.

`skipValue` passes over any value, byte strings and extensions included, without looking into
texts.
-/

namespace FrameRpc

namespace MessagePack

/-- The name at the front of an entry, of the first entry or of a later one. -/
def readName (first : Bool) (budget : Nat) : Reader String := fun bs => do
  let (t, rest) ← readToken bs
  let (item, rest) ← t.item budget rest
  if first then
    match item with
    | .text s => return (s, rest)
    | item => .error (refuse item .stringKey)
  else
    match item.asText with
    | .ok s => return (s, rest)
    | .error m => .error (.at item m)

/-- Reads the entries of an object into the fields already read. -/
def readEntries (budget : Nat) (read : Reader Value) (first : Bool) (fields : Fields) :
    Nat → Reader Fields
  | 0, bs => .ok (fields, bs)
  | n + 1, bs => do
    let (name, rest) ← readName first budget bs
    let (v, rest) ← read rest
    readEntries budget read false (fields.insert name v) n rest

/-- The dynamic value of an item without contents. -/
def valueOfItem : Item → Except ReadError Value
  | .nil => .ok .null
  | .bool b => .ok (.bool b)
  | .unsigned n => .ok (.int (.ofUnsigned n))
  | .signed n => .ok (.int (.ofSigned n))
  | .float x => .ok (.ofFloat x)
  | .text s => .ok (.text s)
  | item => .error (refuse item .anyValue)

/-- Reads a dynamic value with `budget` containers to open, its contents by `inner`. -/
def readValueWith (budget : Nat) (inner : Reader Value) : Reader Value := fun bs => do
  let (t, rest) ← readToken bs
  match t with
  | .list n =>
    let _ ← enter budget
    let (items, rest) ← readMany inner n rest
    return (.list items, rest)
  | .map n =>
    let budget ← enter budget
    let (fields, rest) ← readEntries budget inner true [] n rest
    return (.object fields, rest)
  | t =>
    let (item, rest) ← t.item budget rest
    let v ← valueOfItem item
    return (v, rest)

/-- Reads a dynamic value with `budget` containers to open. -/
def readValue : (budget : Nat) → Reader Value
  | 0 => readValueWith 0 fun _ => .error .tooDeep
  | budget + 1 => readValueWith (budget + 1) (readValue budget)

/-- Passes over a value with `budget` containers to open, over its contents by `inner`. -/
def skipValueWith (budget : Nat) (inner : Reader Unit) : Reader Unit := fun bs => do
  let (t, rest) ← readToken bs
  match t with
  | .text n | .bytes n =>
    let (_, rest) ← takeBody n rest
    return ((), rest)
  | .list n =>
    let _ ← enter budget
    let (_, rest) ← readMany inner n rest
    return ((), rest)
  | .map n =>
    let _ ← enter budget
    let (_, rest) ← readMany inner (2 * n) rest
    return ((), rest)
  | .extension n =>
    let _ ← enter budget
    let (_, rest) ← takeBytes .noData 1 rest
    let (_, rest) ← takeBody n rest
    return ((), rest)
  | .nil | .bool _ | .unsigned _ | .signed _ | .float _ => return ((), rest)

/-- Passes over a value with `budget` containers to open. -/
def skipValue : (budget : Nat) → Reader Unit
  | 0 => skipValueWith 0 fun _ => .error .tooDeep
  | budget + 1 => skipValueWith (budget + 1) (skipValue budget)

/-- Reads only the head of a list. -/
def readListLength : Reader Nat := fun bs => do
  let (m, rest) ← takeMarker bs
  match m with
  | .fixList n => return (n, rest)
  | .list w => takeField w rest
  | m => .error (.wrongMarker m)

end MessagePack

end FrameRpc
