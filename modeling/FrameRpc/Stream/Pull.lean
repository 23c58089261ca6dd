import FrameRpc.Stream.Decoder

/-!
# Pulls

What a caller may ask of a decoder, as data, so that one can speak of any sequence of pulls. Each
pull has a type of results, and `Decoder.perform` is the operation that it stands for.
-/

namespace FrameRpc

/-- What a caller may pull. -/
inductive Pull where
  /-- The next value, as a shape. -/
  | next (s : Shape)
  /-- The next value, as a valid header. -/
  | header
  /-- The domain form of the next value. -/
  | compact (s : Schema)
  /-- The domain form of the next value, as a shape. -/
  | compactAs (s : Schema) (shape : Shape)
  /-- The length of the list at the front. -/
  | listLength
  /-- Nothing, past the next value. -/
  | skip

/-- What a pull gives. -/
@[reducible]
def Pull.Result : Pull → Type
  | .next s => s.Carrier
  | .header => Header
  | .compact _ => Value
  | .compactAs _ shape => shape.Carrier
  | .listLength => Nat
  | .skip => Unit

namespace Decoder

/-- Pulls. -/
def perform (d : Decoder) : (p : Pull) → Except Error p.Result × Decoder
  | .next s => d.next s
  | .header => d.nextHeader
  | .compact s => d.nextCompact s
  | .compactAs s shape => d.nextCompactAs s shape
  | .listLength => d.nextListLength
  | .skip => d.skip

/-- The decoder after a list of pulls, whatever they give. -/
def after (d : Decoder) : List Pull → Decoder
  | [] => d
  | p :: rest => (d.perform p).2.after rest

end Decoder

end FrameRpc
