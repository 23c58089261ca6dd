import FrameRpc.Value.Text

/-!
# Schema errors

A failed transform points at the culprit: a path from the root of the value that was transformed
to the value at fault, and what is wrong there (`Fault`). Errors are raised at the value and get
their path on the way out, one step at each level (`SchemaError.under`).
-/

namespace FrameRpc

/-- A step of a path. -/
inductive Segment where
  /-- Into the field of an object. -/
  | field (name : String)
  /-- To an item of a list. -/
  | index (i : Nat)
  deriving DecidableEq, Repr

/-- A path from a value to a value inside it. -/
abbrev Path := List Segment

/-- The text of a step. -/
def Segment.text : Segment → String
  | .field name => "." ++ name
  | .index i => s!"[{i}]"

/-- The text of a path, from the root `$`. -/
def Path.text (p : Path) : String := "$" ++ String.join (p.map Segment.text)

/-- What a schema asks for. -/
inductive Wanted where
  | map
  | array
  | integer
  /-- An entry of a lookup. -/
  | pair
  deriving DecidableEq, Repr

/-- The wording of what a schema asks for. -/
def Wanted.word : Wanted → String
  | .map => "map"
  | .array => "array"
  | .integer => "integer"
  | .pair => "[index, value] pair"

/-- What is wrong with a value. -/
inductive Fault where
  /-- An index that the schema does not declare; it declares `count` entries. -/
  | unknownIndex (index : Int) (count : Nat)
  /-- A value that is not a declared literal. -/
  | unknownLiteral (value : Value)
  /-- A required field that is absent. -/
  | missingField (name : String)
  /-- More items than the schema declares. -/
  | arity (expected found : Nat)
  /-- A value of the wrong kind. -/
  | unexpected (wanted : Wanted) (found : Kind)

/-- The wording of a fault. -/
def Fault.message : Fault → String
  | .unknownIndex index count =>
    s!"index {index} is outside the declared schema ({count} entries)"
  | .unknownLiteral value => value.json ++ " is not a declared literal"
  | .missingField name => "missing required field `" ++ name ++ "`"
  | .arity expected found => s!"expected at most {expected} elements, found {found}"
  | .unexpected wanted found => "expected " ++ wanted.word ++ ", found " ++ found.word

/-- A fault and where it is. -/
structure SchemaError where
  /-- The way to the value at fault. -/
  path : Path
  /-- What is wrong there. -/
  fault : Fault

namespace SchemaError

/-- The wording of an error. -/
def message (e : SchemaError) : String := e.path.text ++ ": " ++ e.fault.message

/-- A fault of the value at hand. -/
def here (fault : Fault) : SchemaError := ⟨[], fault⟩

/-- The error as seen from the value that a step leads away from. -/
def under (s : Segment) (e : SchemaError) : SchemaError := ⟨s :: e.path, e.fault⟩

end SchemaError

/-- The result of a transform. -/
abbrev Transformed (α : Type) := Except SchemaError α

/-- The result seen from the value that a step leads away from. -/
def Transformed.under {α : Type} (s : Segment) : Transformed α → Transformed α :=
  Except.mapError (SchemaError.under s)

end FrameRpc
