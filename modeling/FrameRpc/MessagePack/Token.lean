import FrameRpc.MessagePack.Marker
import FrameRpc.Mismatch

/-!
# Tokens

The front of a MessagePack value: its marker with the number or the length that belongs to it,
before the body of a text and before the contents of a container. A reader takes tokens and
bodies from the front of a byte string and hands on the rest; what runs out, and where, is part of
its error (`ReadError`), because a stream waits for more bytes on exactly these errors
(`ReadError.isTruncation`).

Readers carry a budget of containers that may still be opened, `maxDepth` at the outermost value.
-/

namespace FrameRpc

namespace MessagePack

/-- Why a value cannot be read. -/
inductive ReadError where
  /-- The bytes end where a marker should be. -/
  | noMarker
  /-- The bytes end inside a number or length field. -/
  | noData
  /-- The bytes end inside a body. -/
  | noBody
  /-- A marker that the reader cannot use. -/
  | wrongMarker (m : Marker)
  /-- Too many containers inside one another. -/
  | tooDeep
  /-- A text that is not UTF-8. -/
  | malformedText (why : Utf8.Failure)
  /-- A list with items left after the record it stands for, which has this many. -/
  | excess (expected : Nat)
  /-- A value that is not of the type asked for. -/
  | mismatch (m : Mismatch)

/-- The wording of a read error. -/
def ReadError.message : ReadError → String
  | .noMarker => "IO error while reading marker: failed to fill whole buffer"
  | .noData => "IO error while reading data: failed to fill whole buffer"
  | .noBody => "IO error while reading data: unexpected end of file"
  | .wrongMarker m => "wrong msgpack marker " ++ m.name
  | .tooDeep => "depth limit exceeded"
  | .malformedText why => "string found to be invalid utf8: " ++ why.message
  | .excess expected => s!"array had incorrect length, expected {expected}"
  | .mismatch m => m.message .encoded

/-- The bytes ended before the value did. -/
def ReadError.isTruncation : ReadError → Bool
  | .noMarker | .noData | .noBody => true
  | _ => false

/-- A reader takes a value from the front of the bytes and leaves the rest. -/
abbrev Reader (α : Type) := Bytes → Except ReadError (α × Bytes)

/-- The number of containers that may be open at once. -/
def maxDepth : Nat := 1023

/-- The budget inside a container. -/
def enter : Nat → Except ReadError Nat
  | 0 => .error .tooDeep
  | budget + 1 => .ok budget

/-- The marker at the front. -/
def takeMarker : Reader Marker
  | [] => .error .noMarker
  | b :: rest => .ok (Marker.ofByte b, rest)

/-- The first `n` bytes, or `short` when there are fewer. -/
def takeBytes (short : ReadError) (n : Nat) : Reader Bytes := fun bs =>
  let front := bs.take n
  if front.length = n then .ok (front, bs.drop n) else .error short

/-- A number or length field. -/
def takeField (w : Width) : Reader Nat := fun bs => do
  let (data, rest) ← takeBytes .noData w.octets bs
  return (ofBigEndian data, rest)

/-- The body of a text, byte string or extension. -/
def takeBody (n : Nat) : Reader Bytes := takeBytes .noBody n

/-- The front of a value. -/
inductive Token where
  | nil
  | bool (b : Bool)
  | unsigned (n : UInt64)
  | signed (n : Int64)
  | float (x : Binary64)
  /-- A text of this many bytes. -/
  | text (length : Nat)
  /-- A byte string. -/
  | bytes (length : Nat)
  /-- A list of this many items. -/
  | list (count : Nat)
  /-- A map of this many entries. -/
  | map (count : Nat)
  /-- An extension with a body of this many bytes. -/
  | extension (length : Nat)

/-- The integer of two's complement octets. -/
def signedOf : Width → Nat → Int64
  | .one, n => (Int8.ofNat n).toInt64
  | .two, n => (Int16.ofNat n).toInt64
  | .four, n => (Int32.ofNat n).toInt64
  | .eight, n => Int64.ofNat n

/-- Reads on after a marker, up to the end of the token. -/
def Marker.token : Marker → Reader Token
  | .nil, bs => .ok (.nil, bs)
  | .bool b, bs => .ok (.bool b, bs)
  | .reserved, _ => .error (.wrongMarker .reserved)
  | .fixUnsigned n, bs => .ok (.unsigned (UInt64.ofNat n), bs)
  | .fixNegative n, bs => .ok (.signed (Int64.ofInt (-(n + 1))), bs)
  | .unsigned w, bs => do
    let (n, rest) ← takeField w bs
    return (.unsigned (UInt64.ofNat n), rest)
  | .signed w, bs => do
    let (n, rest) ← takeField w bs
    return (.signed (signedOf w n), rest)
  | .float32, bs => do
    let (n, rest) ← takeField .four bs
    return (.float (Binary64.widen (UInt32.ofNat n)), rest)
  | .float64, bs => do
    let (n, rest) ← takeField .eight bs
    return (.float ⟨UInt64.ofNat n⟩, rest)
  | .fixText n, bs => .ok (.text n, bs)
  | .text w, bs => do
    let (n, rest) ← takeField w bs
    return (.text n, rest)
  | .bytes w, bs => do
    let (n, rest) ← takeField w bs
    return (.bytes n, rest)
  | .fixList n, bs => .ok (.list n, bs)
  | .list w, bs => do
    let (n, rest) ← takeField w bs
    return (.list n, rest)
  | .fixMap n, bs => .ok (.map n, bs)
  | .map w, bs => do
    let (n, rest) ← takeField w bs
    return (.map n, rest)
  | .fixExtension n, bs => .ok (.extension n, bs)
  | .extension w, bs => do
    let (n, rest) ← takeField w bs
    return (.extension n, rest)

/-- The token at the front. -/
def readToken : Reader Token := fun bs => do
  let (m, rest) ← takeMarker bs
  m.token rest

/-- The item that a token begins, with the body of a text or byte string. A container has to be
    within the budget, its contents stay unread. -/
def Token.item (budget : Nat) : Token → Reader Item
  | .nil, bs => .ok (.nil, bs)
  | .bool b, bs => .ok (.bool b, bs)
  | .unsigned n, bs => .ok (.unsigned n, bs)
  | .signed n, bs => .ok (.signed n, bs)
  | .float x, bs => .ok (.float x, bs)
  | .text n, bs => do
    let (body, rest) ← takeBody n bs
    match Utf8.decode body with
    | .ok s => return (.text s, rest)
    | .error why => return (.malformed body why, rest)
  | .bytes n, bs => do
    let (body, rest) ← takeBody n bs
    return (.bytes body, rest)
  | .list _, bs => do
    let _ ← enter budget
    return (.sequence, bs)
  | .map _, bs => do
    let _ ← enter budget
    return (.map, bs)
  | .extension _, bs => do
    let _ ← enter budget
    return (.extension, bs)

/-- The error of a mismatch at an item. A text that is not UTF-8 is an error of its own. -/
def ReadError.at (item : Item) (m : Mismatch) : ReadError :=
  match item with
  | .malformed _ why => .malformedText why
  | _ => .mismatch m

/-- The error of an item that is not of the type asked for. -/
def refuse (item : Item) (expected : Expected) : ReadError :=
  .at item (.wrongType item expected)

/-- Reads one value after the other, as many as `n`, in front of those already read. -/
def readManyOnto {α : Type} (read : Reader α) (done : List α) : Nat → Reader (List α)
  | 0, bs => .ok (done.reverse, bs)
  | n + 1, bs => do
    let (a, rest) ← read bs
    readManyOnto read (a :: done) n rest

/-- Reads one value after the other, as many as `n`. -/
def readMany {α : Type} (read : Reader α) (n : Nat) : Reader (List α) := readManyOnto read [] n

end MessagePack

end FrameRpc
