import FrameRpc.Binary64

/-!
# Shortest decimals

The decimal that stands for a finite binary64 number is the one with the fewest digits among
those that read back as the number, and the nearest of these; of two equally near ones a rule
decides (`Decimal.Tie`). The reals that read back are an interval around the number, reaching half
way to its neighbours, its ends included exactly when the significand is even
(`Decimal.Interval`). For one digit, two digits and so on, the two neighbours of the number on the
grid of decimals of that length are tried; the first grid with a point in the interval decides.

All comparisons are between natural numbers: a real is a quotient over `4 · 2 ^ 1074`, and powers
of ten are multiplied to whichever side keeps them integral.
-/

namespace FrameRpc

/-- A decimal number `digits · 10 ^ exponent`. -/
structure Decimal where
  /-- The digits, as a number. -/
  digits : Nat
  /-- The place of the last digit. -/
  exponent : Int
  deriving DecidableEq, Repr

namespace Decimal

/-- Which of two equally near decimals stands for a number. -/
inductive Tie where
  /-- The one with an even last digit. -/
  | even
  /-- The larger one. -/
  | up
  deriving DecidableEq, Repr

/-- The rule takes the lower one of two neighbours, whose digits are `below`. -/
def Tie.takesLower : Tie → (below : Nat) → Bool
  | .even, below => below % 2 == 0
  | .up, _ => false

/-- The number of decimal digits. -/
def width (n : Nat) : Nat := (Nat.toDigits 10 n).length

/-- A power of ten. -/
def tens (k : Nat) : Nat := Nat.pow 10 k

/-- The number one, in quarters of the unit `2 ^ -1074`. -/
def one : Nat := 1 <<< 1076

/-- The reals that read back as a number, in quarters of the unit `2 ^ -1074`. -/
structure Interval where
  /-- The lower end. -/
  lower : Nat
  /-- The upper end. -/
  upper : Nat
  /-- The ends read back too. -/
  closed : Bool

/-- The size of a number, in quarters of the unit `2 ^ -1074`. -/
def quarters (x : Binary64) : Nat := (4 * x.significand) <<< x.scale

/-- The interval around a positive number. Below a power of two the neighbours are twice as close
    as above it. -/
def Interval.around (x : Binary64) : Interval where
  lower := quarters x - (if x.fraction = 0 ∧ 0 < x.scale then 1 else 2) <<< x.scale
  upper := quarters x + 2 <<< x.scale
  closed := x.significand % 2 = 0

/-- The side of a comparison that holds a decimal: `d` in quarters, times the powers of ten that
    make both sides integral. -/
def weigh (d : Decimal) : Nat := d.digits * tens d.exponent.toNat * one

/-- The other side of a comparison with a decimal of this exponent. -/
def weighQuarters (exponent : Int) (q : Nat) : Nat := q * tens (-exponent).toNat

/-- The decimal reads back as the number whose interval this is. -/
def inside (d : Decimal) (i : Interval) : Bool :=
  let v := weigh d
  let lo := weighQuarters d.exponent i.lower
  let hi := weighQuarters d.exponent i.upper
  if i.closed then lo ≤ v && v ≤ hi else lo < v && v < hi

/-- The place of the leading digit of a positive number. -/
def leading (x : Binary64) : Int :=
  let n := quarters x
  if one ≤ n then (width (n / one) : Int) - 1
  else -(width ((one + n - 1) / n - 1) : Int)

/-- The decimal of the grid with last place `exponent` that stands for the number, if one does. -/
def onGrid (tie : Tie) (x : Binary64) (exponent : Int) : Option Decimal :=
  let i := Interval.around x
  let v := weighQuarters exponent (quarters x)
  let step := tens exponent.toNat * one
  let below : Decimal := ⟨v / step, exponent⟩
  let above : Decimal := ⟨v / step + 1, exponent⟩
  match below.inside i, above.inside i with
  | true, false => some below
  | false, true => some above
  | true, true =>
    let rest := 2 * (v % step)
    if rest < step || (rest == step && tie.takesLower below.digits) then some below else some above
  | false, false => none

/-- The first grid from `n` digits on, of `fuel` many, with a decimal that stands for the number. -/
def search (tie : Tie) (x : Binary64) : Nat → Nat → Decimal
  | 0, n => ⟨weighQuarters (leading x + 1 - n) (quarters x) /
      (tens (leading x + 1 - n).toNat * one), leading x + 1 - n⟩
  | fuel + 1, n => (onGrid tie x (leading x + 1 - n)).getD (search tie x fuel (n + 1))

/-- The same decimal without zeros at its end, of which at most `fuel` are dropped. -/
def trim : Nat → Decimal → Decimal
  | 0, d => d
  | fuel + 1, d =>
    if d.digits ≠ 0 ∧ d.digits % 10 = 0 then trim fuel ⟨d.digits / 10, d.exponent + 1⟩ else d

/-- The shortest decimal for the size of a finite number. Seventeen digits are always enough. -/
def shortest (tie : Tie) (x : Binary64) : Decimal :=
  if x.significand = 0 then ⟨0, 0⟩ else (search tie x 17 1).trim 17

end Decimal

end FrameRpc
