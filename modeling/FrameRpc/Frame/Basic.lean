import FrameRpc.Stream.Decoder

/-!
# Frames

A frame is the concatenation of the encodings of a header and of any number of values. There is
no length in front: whoever reads a frame decides how many values to take, and `Frame.parse` takes
all there are. A frame is built value by value (`FrameBuilder`); a value that cannot be written
leaves the frame as it was.
-/

namespace FrameRpc

/-- A header and the values behind it. -/
structure Frame where
  /-- The header. -/
  header : Header
  /-- The values in order. -/
  values : List Value

/-- The encoding of a header and the values behind it, each of a shape. -/
def encodeFrame (header : Header) (values : List ((s : Shape) × s.Carrier)) : Bytes :=
  header.write ++ values.flatMap fun v => v.1.write v.2

/-- A frame under construction. -/
structure FrameBuilder where
  /-- What has been written. -/
  bytes : Bytes
  /-- The number of values behind the header. -/
  count : Nat
  deriving DecidableEq, Repr

namespace FrameBuilder

/-- A frame that holds its header only. -/
def new (header : Header) : FrameBuilder := ⟨header.write, 0⟩

/-- Appends a value of a shape. -/
def push (b : FrameBuilder) (s : Shape) (a : s.Carrier) : FrameBuilder :=
  ⟨b.bytes ++ s.write a, b.count + 1⟩

/-- Appends the wire form of a value, if there is one. -/
def pushCompact (b : FrameBuilder) (s : Schema) (domain : Except Mismatch Value) :
    Except Error FrameBuilder :=
  (s.encodeFrom domain).map fun wire => b.push .dynamic wire

end FrameBuilder

namespace Frame

/-- The encoding of a frame. -/
def encode (f : Frame) : Bytes :=
  encodeFrame f.header (f.values.map fun v => ⟨.dynamic, v⟩)

/-- The first value. -/
def first (f : Frame) : Option Value := f.values.head?

/-- Equality of frames, of their values as values. -/
def agrees (f g : Frame) : Bool := f.header == g.header && Value.agreesList f.values g.values

/-- Pulls values behind those already pulled, until there are no more. Each takes at least a byte,
    so a decoder that holds fewer than `fuel` bytes gets to the end. -/
def drain (done : List Value) : (fuel : Nat) → Decoder → Except Error (List Value)
  | 0, _ => .ok done.reverse
  | fuel + 1, d =>
    match d.nextValue with
    | (.ok v, d) => drain (v :: done) fuel d
    | (.error .exhausted, _) => .ok done.reverse
    | (.error e, _) => .error e

/-- The frame of which these are the bytes. -/
def parse (bs : Bytes) : Except Error Frame :=
  match (Decoder.ofBytes bs).nextHeader with
  | (.ok header, d) => (drain [] (bs.length + 1) d).map fun values => ⟨header, values⟩
  | (.error e, _) => .error e

end Frame

end FrameRpc
