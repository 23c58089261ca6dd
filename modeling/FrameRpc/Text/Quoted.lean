import FrameRpc.Text.Unmarked

/-!
# Quoted text

A text between double quotes, on one line of printable characters: the quote and the backslash
are escaped by a backslash, the common controls by their letters, and every other character that
leaves no mark of its own by its code point.
-/

namespace FrameRpc

namespace Quoted

/-- The lower-case hexadecimal digits of a number. -/
def hex (n : Nat) : String := String.ofList (Nat.toDigits 16 n)

/-- A character as it stands in a quotation. -/
def escape (c : Char) : String :=
  match c with
  | '"' => "\\\""
  | '\\' => "\\\\"
  | '\n' => "\\n"
  | '\r' => "\\r"
  | '\t' => "\\t"
  | '\x00' => "\\0"
  | c => if Unmarked.mem c then "\\u\x7b" ++ hex c.toNat ++ "\x7d" else c.toString

/-- The quotation of a text. -/
def quote (s : String) : String :=
  "\"" ++ String.join (s.toList.map escape) ++ "\""

end Quoted

end FrameRpc
