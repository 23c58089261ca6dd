import FrameRpc.Decimal.Layout
import FrameRpc.Text.Quoted
import FrameRpc.Text.Utf8

/-!
# Mismatches

A reader that asks for a type and meets something else reports a *mismatch*: what it met
(`Item`, the outside of a value, without the contents of containers), what it asked for
(`Expected`), or which field of a record is missing, repeated or unknown (`Mismatch`). The same
mismatches arise from bytes and from dynamic values; only the word for nil and the text of
floating-point numbers differ between the two, and `Mismatch.message` takes them as an argument
(`Wording`).
-/

namespace FrameRpc

/-- The outside of a value: scalars as they are, containers by their kind. -/
inductive Item where
  | nil
  | bool (b : Bool)
  /-- An integer in an unsigned form. -/
  | unsigned (n : UInt64)
  /-- An integer in a signed form. -/
  | signed (n : Int64)
  | float (x : Binary64)
  | text (s : String)
  /-- A text whose bytes are not UTF-8. -/
  | malformed (bs : Bytes) (why : Utf8.Failure)
  | bytes (bs : Bytes)
  | sequence
  | map
  | extension

/-- The words of messages that depend on where a value was found. -/
structure Wording where
  /-- The word for nil. -/
  nil : String
  /-- The text of a floating-point number. -/
  float : Binary64 → String

/-- The words for what was read from bytes. -/
def Wording.encoded : Wording := ⟨"unit value", Binary64.positionalText⟩

/-- The words for dynamic values. -/
def Wording.dynamic : Wording := ⟨"null", Binary64.compactText⟩

/-- What an item is called in a message. -/
def Item.describe (words : Wording) : Item → String
  | .nil => words.nil
  | .bool b => "boolean `" ++ (if b then "true" else "false") ++ "`"
  | .unsigned n => "integer `" ++ toString n.toNat ++ "`"
  | .signed n => "integer `" ++ toString n.toInt ++ "`"
  | .float x => "floating point `" ++ words.float x ++ "`"
  | .text s => "string " ++ Quoted.quote s
  | .malformed _ _ | .bytes _ => "byte array"
  | .sequence => "sequence"
  | .map => "map"
  | .extension => "newtype struct"

/-- What a reader asks for. -/
inductive Expected where
  | u8 | u32 | i64 | f64 | boolean | string | sequence | unit
  /-- The record of this name. -/
  | record (name : String)
  /-- The record of this name, by its number of fields. -/
  | elements (name : String) (count : Nat)
  | actionTag
  | fieldName
  /-- The name of the first field of an object. -/
  | stringKey
  | anyValue
  /-- A choice, as its name or as a map from it. -/
  | choice
  /-- A map from one name. -/
  | singleKey
  /-- A tagged choice with a state and a value, by its name. -/
  | tagged (name : String)
  /-- An array no longer than the record. -/
  | fewerElements
  deriving DecidableEq, Repr

/-- What a reader asks for, in a message. -/
def Expected.describe : Expected → String
  | .u8 => "u8"
  | .u32 => "u32"
  | .i64 => "i64"
  | .f64 => "f64"
  | .boolean => "a boolean"
  | .string => "a string"
  | .sequence => "a sequence"
  | .unit => "unit"
  | .record name => "struct " ++ name
  | .elements name count => s!"struct {name} with {count} elements"
  | .actionTag => "an action tag"
  | .fieldName => "field identifier"
  | .stringKey => "a string key"
  | .anyValue => "any valid JSON value"
  | .choice => "string or map"
  | .singleKey => "map with a single key"
  | .tagged name => "adjacently tagged enum " ++ name
  | .fewerElements => "fewer elements in array"

/-- Why a value is not of the type asked for. -/
inductive Mismatch where
  /-- A value of another kind. -/
  | wrongType (found : Item) (expected : Expected)
  /-- A value of the right kind that the type does not hold. -/
  | wrongValue (found : Item) (expected : Expected)
  /-- A list of the wrong length. -/
  | wrongLength (length : Nat) (expected : Expected)
  | missingField (name : String)
  | duplicateField (name : String)
  | unknownAction (tag : String)
  /-- A name that is none of the choices. -/
  | unknownChoice (name : String) (choices : List String)
  /-- Bytes that should be a tag and are not UTF-8. -/
  | malformedTag (why : Utf8.Failure)
  /-- A map with a name that is no text. -/
  | keyNotText

/-- The text that an item is. Byte strings of UTF-8 are texts too. -/
def Item.asText : Item → Except Mismatch String
  | .text s => .ok s
  | .bytes bs =>
    match Utf8.decode bs with
    | .ok s => .ok s
    | .error _ => .error (.wrongValue (.bytes bs) .string)
  | item => .error (.wrongType item .string)

/-- The choices of a message, each in backquotes. -/
def Mismatch.listChoices (choices : List String) : String :=
  " or ".intercalate (choices.map fun c => "`" ++ c ++ "`")

/-- The wording of a mismatch. -/
def Mismatch.message (words : Wording) : Mismatch → String
  | .wrongType found expected =>
    "invalid type: " ++ found.describe words ++ ", expected " ++ expected.describe
  | .wrongValue found expected =>
    "invalid value: " ++ found.describe words ++ ", expected " ++ expected.describe
  | .wrongLength n expected => s!"invalid length {n}, expected " ++ expected.describe
  | .missingField name => "missing field `" ++ name ++ "`"
  | .duplicateField name => "duplicate field `" ++ name ++ "`"
  | .unknownAction tag => "unknown action `" ++ tag ++ "`"
  | .unknownChoice name choices =>
    "unknown variant `" ++ name ++ "`, expected " ++ listChoices choices
  | .malformedTag why => why.message
  | .keyNotText => "key must be a string"

/-- The wording of a mismatch between dynamic values and a type. -/
def Mismatch.text (m : Mismatch) : String := m.message .dynamic

end FrameRpc
