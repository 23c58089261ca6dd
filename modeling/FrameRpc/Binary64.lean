/-!
# Binary64 numbers

A floating-point number is its 64 bits: sign, biased exponent, fraction. The finite ones are
read as `significand · 2 ^ scale` in units of `2 ^ -1074`, the least positive one, so that every
computation on them is exact arithmetic on natural numbers.

* `ofScaled` writes such a product, when it has at most 53 significant bits;
* `ofInt` rounds an integer to the nearest number, ties to even;
* `widen` reads the 32-bit format, every number of which is one of the 64-bit format;
* `agrees` is numeric equality: the two zeros agree, and finite numbers agree with no other.
-/

namespace FrameRpc

/-- A binary64 number, as its bits. -/
structure Binary64 where
  /-- Sign, biased exponent and fraction. -/
  bits : UInt64
  deriving DecidableEq, Repr

namespace Binary64

/-- The number is negative, or the negative zero. -/
def isNegative (x : Binary64) : Bool := 0x8000000000000000 ≤ x.bits.toNat

/-- The biased exponent, `2047` for infinities and NaN. -/
def exponent (x : Binary64) : Nat := x.bits.toNat / 0x10000000000000 % 0x800

/-- The fraction, without the leading bit of a normal number. -/
def fraction (x : Binary64) : Nat := x.bits.toNat % 0x10000000000000

/-- Neither an infinity nor NaN. -/
def isFinite (x : Binary64) : Bool := x.exponent != 2047

/-- Not a number. -/
def isNaN (x : Binary64) : Bool := x.exponent == 2047 && x.fraction != 0

/-- The significand, with the leading bit of a normal number. -/
def significand (x : Binary64) : Nat :=
  if x.exponent = 0 then x.fraction else x.fraction + 0x10000000000000

/-- The power of two of the significand's last place, in units of `2 ^ -1074`. -/
def scale (x : Binary64) : Nat := x.exponent - 1

/-- One of the two zeros. -/
def isZero (x : Binary64) : Bool := x.bits == 0 || x.bits == 0x8000000000000000

/-- Numeric equality of finite numbers: the two zeros agree. -/
def agrees (x y : Binary64) : Bool := x == y || (x.isZero && y.isZero)

/-- The number with significand `m < 2 ^ 53` and scale `p`, normal when `2 ^ 52 ≤ m`. A
    significand of `2 ^ 53` carries into the exponent. -/
def ofParts (negative : Bool) (m p : Nat) : Binary64 :=
  ⟨UInt64.ofNat ((if negative then 0x8000000000000000 else 0) +
    if m < 0x10000000000000 then m
    else (p + 1) * 0x10000000000000 + (m - 0x10000000000000))⟩

/-- `n · 2 ^ q` in units of `2 ^ -1074`, for `n` of at most 53 bits. -/
def ofScaled (negative : Bool) (n q : Nat) : Binary64 :=
  let shift := min q (52 - n.log2)
  ofParts negative (n <<< shift) (q - shift)

/-- The integer nearest to `n / 2 ^ s`, of two equally near the even one. -/
def roundShift (n s : Nat) : Nat :=
  let q := n >>> s
  let rest := 2 * (n % (1 <<< s))
  if rest < 1 <<< s then q
  else if 1 <<< s < rest then q + 1
  else q + q % 2

/-- The number nearest to the integer of this sign and size, ties to even. -/
def rounded (negative : Bool) (n : Nat) : Binary64 :=
  if n < 0x20000000000000 then ofScaled negative n 1074
  else
    let shift := n.log2 - 52
    ofParts negative (roundShift n shift) (1074 + shift)

/-- The number nearest to an integer, ties to even. -/
def ofInt (i : Int) : Binary64 := rounded (decide (i < 0)) i.natAbs

/-- The number with given binary32 bits. NaN becomes a quiet NaN with the same payload. -/
def widen (bits : UInt32) : Binary64 :=
  let n := bits.toNat
  let negative : Bool := 0x80000000 ≤ n
  let exponent := n / 0x800000 % 0x100
  let fraction := n % 0x800000
  if exponent = 255 then
    let payload := if fraction = 0 then 0 else fraction * 0x20000000 % 0x8000000000000 + 0x8000000000000
    ofParts negative (0x10000000000000 + payload) 2046
  else if exponent = 0 then ofScaled negative fraction 925
  else ofScaled negative (fraction + 0x800000) (exponent + 924)

end Binary64

/-- A finite binary64 number. -/
abbrev Finite64 := { x : Binary64 // x.isFinite = true }

end FrameRpc
