import FrameRpc.Decimal.Shortest

/-!
# Number layouts

Two ways to write a binary64 number from its shortest decimal. `positional` never uses an
exponent; `compact` does so for large and small numbers, as usual in JSON text, and always with a
sign. Both keep a fractional part or an exponent, so that a floating-point number never looks like
an integer. They also differ on ties: positional text takes the larger of two equally near
decimals, compact text the one with an even last digit.
-/

namespace FrameRpc

namespace Decimal

/-- The decimal digits of a number. -/
def figures (n : Nat) : List Char := Nat.toDigits 10 n

/-- The digits with the point after place `point`, counted from the left; zeros fill the gap when
    the point falls outside the digits. A fractional part is always present. -/
def withPoint (digits : List Char) (point : Int) : List Char :=
  if point ≤ 0 then '0' :: '.' :: (List.replicate (-point).toNat '0' ++ digits)
  else
    let whole := digits.take point.toNat ++ List.replicate (point.toNat - digits.length) '0'
    let rest := digits.drop point.toNat
    whole ++ '.' :: (if rest.isEmpty then ['0'] else rest)

/-- Without an exponent, whatever the size. -/
def positional (d : Decimal) : List Char :=
  let digits := figures d.digits
  if d.digits = 0 then ['0', '.', '0'] else withPoint digits (digits.length + d.exponent)

/-- An exponent with its sign. -/
def signed (e : Int) : List Char :=
  (if 0 ≤ e then '+' else '-') :: figures e.natAbs

/-- With an exponent for numbers of more than sixteen whole places, or below `10 ^ -5`. -/
def compact (d : Decimal) : List Char :=
  let digits := figures d.digits
  let point : Int := digits.length + d.exponent
  if d.digits = 0 then ['0', '.', '0']
  else if -5 < point ∧ point ≤ 16 then withPoint digits point
  else
    let mantissa := match digits with
      | [c] => [c]
      | c :: cs => c :: '.' :: cs
      | [] => []
    mantissa ++ 'e' :: signed (point - 1)

end Decimal

namespace Binary64

/-- The text of a number, with ties decided by `tie`, laid out by `layout`. -/
def textBy (tie : Decimal.Tie) (layout : Decimal → List Char) (x : Binary64) : String :=
  if x.isNaN then "NaN"
  else
    let sign := if x.isNegative then "-" else ""
    if x.isFinite then sign ++ String.ofList (layout (Decimal.shortest tie x)) else sign ++ "inf"

/-- Positional text, as in messages about encoded values. -/
def positionalText (x : Binary64) : String := x.textBy .up Decimal.positional

/-- Compact text, as in JSON and in messages about dynamic values. -/
def compactText (x : Binary64) : String := x.textBy .even Decimal.compact

end Binary64

end FrameRpc
