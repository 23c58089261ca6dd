import FrameRpc.Bytes

/-!
# Markers

The first byte of every MessagePack value is its marker. It tells the kind of the value and
either holds a small value or length itself or tells the width of the field that follows
(`Marker.ofByte`). What has to follow a marker for the value to be complete is its `Layout`; only
the reserved marker has none.
-/

namespace FrameRpc

namespace MessagePack

/-- The number of octets of an integer or length field. -/
inductive Width where
  | one | two | four | eight
  deriving DecidableEq, Repr

/-- The width in octets. -/
def Width.octets : Width → Nat
  | .one => 1
  | .two => 2
  | .four => 4
  | .eight => 8

/-- The width in bits, as it stands in marker names. -/
def Width.bits (w : Width) : Nat := 8 * w.octets

/-- The first byte of a value. -/
inductive Marker where
  | nil
  | bool (b : Bool)
  /-- The marker that begins no value. -/
  | reserved
  /-- A natural number below 128. -/
  | fixUnsigned (n : Nat)
  /-- A negative integer, `n + 1` below zero, down to -32. -/
  | fixNegative (n : Nat)
  | unsigned (w : Width)
  | signed (w : Width)
  | float32
  | float64
  | fixText (length : Nat)
  | text (w : Width)
  | bytes (w : Width)
  | fixList (count : Nat)
  | list (w : Width)
  | fixMap (count : Nat)
  | map (w : Width)
  /-- An extension whose body has a fixed length. -/
  | fixExtension (length : Nat)
  | extension (w : Width)
  deriving DecidableEq, Repr

namespace Marker

/-- The marker of a byte from `0xC0` to `0xDF`. -/
def ofUpper : Nat → Marker
  | 0xC0 => .nil
  | 0xC2 => .bool false
  | 0xC3 => .bool true
  | 0xC4 => .bytes .one
  | 0xC5 => .bytes .two
  | 0xC6 => .bytes .four
  | 0xC7 => .extension .one
  | 0xC8 => .extension .two
  | 0xC9 => .extension .four
  | 0xCA => .float32
  | 0xCB => .float64
  | 0xCC => .unsigned .one
  | 0xCD => .unsigned .two
  | 0xCE => .unsigned .four
  | 0xCF => .unsigned .eight
  | 0xD0 => .signed .one
  | 0xD1 => .signed .two
  | 0xD2 => .signed .four
  | 0xD3 => .signed .eight
  | 0xD4 => .fixExtension 1
  | 0xD5 => .fixExtension 2
  | 0xD6 => .fixExtension 4
  | 0xD7 => .fixExtension 8
  | 0xD8 => .fixExtension 16
  | 0xD9 => .text .one
  | 0xDA => .text .two
  | 0xDB => .text .four
  | 0xDC => .list .two
  | 0xDD => .list .four
  | 0xDE => .map .two
  | 0xDF => .map .four
  | _ => .reserved

/-- The marker of a byte. -/
def ofByte (b : UInt8) : Marker :=
  let n := b.toNat
  if n < 0x80 then .fixUnsigned n
  else if n < 0x90 then .fixMap (n - 0x80)
  else if n < 0xA0 then .fixList (n - 0x90)
  else if n < 0xC0 then .fixText (n - 0xA0)
  else if n < 0xE0 then ofUpper n
  else .fixNegative (0xFF - n)

/-- The name of a marker, as messages give it. -/
def name : Marker → String
  | .nil => "Null"
  | .bool b => if b then "True" else "False"
  | .reserved => "Reserved"
  | .fixUnsigned n => s!"FixPos({n})"
  | .fixNegative n => "FixNeg(-" ++ toString (n + 1) ++ ")"
  | .unsigned w => "U" ++ toString w.bits
  | .signed w => "I" ++ toString w.bits
  | .float32 => "F32"
  | .float64 => "F64"
  | .fixText n => s!"FixStr({n})"
  | .text w => "Str" ++ toString w.bits
  | .bytes w => "Bin" ++ toString w.bits
  | .fixList n => s!"FixArray({n})"
  | .list w => "Array" ++ toString w.bits
  | .fixMap n => s!"FixMap({n})"
  | .map w => "Map" ++ toString w.bits
  | .fixExtension n => "FixExt" ++ toString n
  | .extension w => "Ext" ++ toString w.bits

/-- Nil, truth values and numbers. -/
def isScalar : Marker → Bool
  | .nil | .bool _ | .fixUnsigned _ | .fixNegative _ | .unsigned _ | .signed _ | .float32
  | .float64 => true
  | _ => false

end Marker

/-- What follows a marker in a complete value. -/
inductive Layout where
  /-- This many octets. -/
  | fixed (length : Nat)
  /-- A length field, then as many octets and `extra` more. -/
  | sized (width : Width) (extra : Nat)
  /-- This many values. -/
  | nested (count : Nat)
  /-- A count field, then `per` values for each. -/
  | counted (width : Width) (per : Nat)
  deriving DecidableEq, Repr

/-- The layout of the values that begin with a marker. Extensions have an octet for their type. -/
def Marker.layout : Marker → Option Layout
  | .reserved => none
  | .nil | .bool _ | .fixUnsigned _ | .fixNegative _ => some (.fixed 0)
  | .unsigned w | .signed w => some (.fixed w.octets)
  | .float32 => some (.fixed 4)
  | .float64 => some (.fixed 8)
  | .fixText n => some (.fixed n)
  | .text w | .bytes w => some (.sized w 0)
  | .fixExtension n => some (.fixed (n + 1))
  | .extension w => some (.sized w 1)
  | .fixList n => some (.nested n)
  | .list w => some (.counted w 1)
  | .fixMap n => some (.nested (2 * n))
  | .map w => some (.counted w 2)

end MessagePack

end FrameRpc
