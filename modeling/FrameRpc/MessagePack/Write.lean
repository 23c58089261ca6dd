import FrameRpc.MessagePack.Marker
import FrameRpc.Text.Utf8
import FrameRpc.Value.Basic

/-!
# Writing MessagePack

Every value is written in its shortest form: an integer in the narrowest field that holds it,
unsigned when it is not negative, a text, list or map with the narrowest length field. Floats
always take eight octets, so that reading gives the same bits back. The encoding of a value
(`write`) does not depend on what stands around it: a frame is a concatenation of encodings.
-/

namespace FrameRpc

namespace MessagePack

/-- A marker byte, then a field of `w` octets. -/
def field (marker : UInt8) (w : Width) (n : Nat) : Bytes := marker :: bigEndian w.octets n

/-- A natural number below `octetRange 8`. -/
def writeNat (n : Nat) : Bytes :=
  if n < 0x80 then [UInt8.ofNat n]
  else if n < 0x100 then field 0xCC .one n
  else if n < 0x10000 then field 0xCD .two n
  else if n < 0x100000000 then field 0xCE .four n
  else field 0xCF .eight n

/-- The integer `-(n + 1)`, in two's complement. -/
def writeNegative (n : Nat) : Bytes :=
  if n < 0x20 then [UInt8.ofNat (0xFF - n)]
  else if n < 0x80 then field 0xD0 .one (0xFF - n)
  else if n < 0x8000 then field 0xD1 .two (0xFFFF - n)
  else if n < 0x80000000 then field 0xD2 .four (0xFFFFFFFF - n)
  else field 0xD3 .eight (0xFFFFFFFFFFFFFFFF - n)

/-- An integer of 64 bits. -/
def writeInt : Int → Bytes
  | .ofNat n => writeNat n
  | .negSucc n => writeNegative n

/-- A floating-point number. -/
def writeFloat (x : Binary64) : Bytes := field 0xCB .eight x.bits.toNat

/-- The head of a text of `n` bytes. -/
def textHead (n : Nat) : Bytes :=
  if n < 32 then [UInt8.ofNat (0xA0 + n)]
  else if n < 0x100 then field 0xD9 .one n
  else if n < 0x10000 then field 0xDA .two n
  else field 0xDB .four n

/-- A text. -/
def writeText (s : String) : Bytes :=
  let bs := Utf8.encode s
  textHead bs.length ++ bs

/-- The head of a list of `n` values. -/
def listHead (n : Nat) : Bytes :=
  if n < 16 then [UInt8.ofNat (0x90 + n)]
  else if n < 0x10000 then field 0xDC .two n
  else field 0xDD .four n

/-- The head of a map of `n` entries. -/
def mapHead (n : Nat) : Bytes :=
  if n < 16 then [UInt8.ofNat (0x80 + n)]
  else if n < 0x10000 then field 0xDE .two n
  else field 0xDF .four n

/-- Nil. -/
def writeNil : Bytes := [0xC0]

/-- A truth value. -/
def writeBool (b : Bool) : Bytes := [if b then 0xC3 else 0xC2]

mutual

/-- The encoding of a dynamic value. -/
def write : Value → Bytes
  | .null => writeNil
  | .bool b => writeBool b
  | .int n => writeInt n.toInt
  | .float x => writeFloat x.val
  | .text s => writeText s
  | .list items => listHead items.length ++ writeItems items
  | .object fields => mapHead fields.length ++ writeFields fields

/-- The encodings of the items of a list. -/
def writeItems : List Value → Bytes
  | [] => []
  | v :: rest => write v ++ writeItems rest

/-- The encodings of the fields of an object, each name before its value. -/
def writeFields : List (String × Value) → Bytes
  | [] => []
  | (name, v) :: rest => writeText name ++ (write v ++ writeFields rest)

end

end MessagePack

end FrameRpc
