import FrameRpc.Decimal.Layout
import FrameRpc.Value.Basic

/-!
# Values as text

The compact JSON text of a value, without blanks. Quotes, backslashes and control characters are
escaped; every other character stands as it is.
-/

namespace FrameRpc

namespace Value

/-- A lower-case hexadecimal digit. -/
def hexDigit (n : Nat) : Char := Nat.digitChar n

/-- A character inside a JSON string. -/
def escapeChar (c : Char) : String :=
  match c with
  | '"' => "\\\""
  | '\\' => "\\\\"
  | '\n' => "\\n"
  | '\t' => "\\t"
  | '\r' => "\\r"
  | '\x08' => "\\b"
  | '\x0c' => "\\f"
  | c =>
    if c.toNat < 0x20 then
      "\\u00" ++ String.ofList [hexDigit (c.toNat / 16), hexDigit (c.toNat % 16)]
    else c.toString

/-- A JSON string. -/
def jsonString (s : String) : String :=
  "\"" ++ String.join (s.toList.map escapeChar) ++ "\""

mutual

/-- The compact JSON text of a value. -/
def json : Value → String
  | .null => "null"
  | .bool b => if b then "true" else "false"
  | .int n => toString n.toInt
  | .float x => x.val.compactText
  | .text s => jsonString s
  | .list items => "[" ++ ",".intercalate (jsonList items) ++ "]"
  | .object fields => "\x7b" ++ ",".intercalate (jsonFields fields) ++ "\x7d"

/-- The texts of the items of a list. -/
def jsonList : List Value → List String
  | [] => []
  | v :: rest => json v :: jsonList rest

/-- The texts of the fields of an object. -/
def jsonFields : List (String × Value) → List String
  | [] => []
  | (name, v) :: rest => (jsonString name ++ ":" ++ json v) :: jsonFields rest

end

end Value

end FrameRpc
