import FrameRpc.Error
import FrameRpc.Schema.Basic

/-!
# Schemas and shapes

A schema transforms dynamic values. `Schema.encodeFrom` starts from something that may fail to
have a dynamic value, `Schema.decodeAs` ends in a value of a shape; the errors of both stages
become errors of the library.
-/

namespace FrameRpc

namespace Schema

/-- From a domain form, if there is one, to the wire form. -/
def encodeFrom (s : Schema) (domain : Except Mismatch Value) : Except Error Value :=
  match domain with
  | .ok v => (s.encode v).mapError Error.schema
  | .error why => .error (.conversion why)

/-- From the wire form to a domain form of a shape. -/
def decodeAs (s : Schema) (shape : Shape) (wire : Value) : Except Error shape.Carrier :=
  match s.decode wire with
  | .ok v => (shape.ofValue v).mapError Error.conversion
  | .error why => .error (.schema why)

end Schema

end FrameRpc
