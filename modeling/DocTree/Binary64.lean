/-!
# Binary64

Floating-point numbers as their 64 bits. Nothing here uses the machine's own
floating-point operations: a finite number is a sign and an exact
`significand * 2 ^ exponent`, and every operation is exact arithmetic on
naturals followed by one rounding to nearest, ties to even.

`roundRatio` is that rounding. It returns the *magnitude* of the result, the 63
bits below the sign. Magnitudes are ordered as the numbers they stand for, and
rounding up past the last significand carries into the exponent field by itself.

## Main definitions

* `Binary64`: a number, as bits.
* `Binary64.significand`, `Binary64.exponent`: the exact value of a finite number.
* `Binary64.roundRatio`: the magnitude nearest to a quotient of naturals.
* `Binary64.ofRatio`, `Binary64.ofInt`, `Binary64.ofDecimal`: rounded numbers.
* `Binary64.mul`, `Binary64.div`: rounded products and quotients of finite numbers.
* `Binary64.equal`: numeric equality.
-/

namespace DocTree

/-- A floating-point number of 64 bits. -/
structure Binary64 where
  bits : UInt64
deriving DecidableEq

namespace Binary64

/-- The sign bit: one more than the largest magnitude. -/
def signBit : Nat := 0x8000_0000_0000_0000

/-- The lowest bit of the exponent field: one more than the largest fraction. -/
def fractionLimit : Nat := 0x10_0000_0000_0000

/-- The magnitude of infinity: all exponent bits set. -/
def infinity : Nat :=
  0x7FF * fractionLimit

/-- The number with this sign and magnitude. -/
def ofMagnitude (negative : Bool) (magnitude : Nat) : Binary64 :=
  ⟨UInt64.ofNat (if negative then signBit + magnitude else magnitude)⟩

/-- The sign bit is set. -/
def negative (x : Binary64) : Bool :=
  signBit ≤ x.bits.toNat

/-- All bits but the sign. -/
def magnitude (x : Binary64) : Nat :=
  x.bits.toNat % signBit

def isNaN (x : Binary64) : Bool :=
  infinity < x.magnitude

def isFinite (x : Binary64) : Bool :=
  x.magnitude < infinity

/-- The significand of a finite number. Of a normal number the leading bit is not stored. -/
def significand (x : Binary64) : Nat :=
  if x.magnitude < fractionLimit then x.magnitude
  else x.magnitude % fractionLimit + fractionLimit

/-- The exponent of a finite number: its size is `significand * 2 ^ exponent`. -/
def exponent (x : Binary64) : Int :=
  if x.magnitude < fractionLimit then -1074
  else (x.magnitude / fractionLimit : Nat) - 1075

/-- The quotient rounded to the nearest integer, a tie to the even one. -/
def roundDiv (num den : Nat) : Nat :=
  let q := num / den
  let twice := 2 * (num % den)
  if twice < den ∨ twice = den ∧ q % 2 = 0 then q else q + 1

/-- The ratio `num / den * 2 ^ e` as a quotient of naturals. -/
def scaleRatio (num den : Nat) (e : Int) : Nat × Nat :=
  if 0 ≤ e then (num <<< e.toNat, den) else (num, den <<< (-e).toNat)

/-- The largest `e` with `2 ^ e ≤ num / den`, for positive `num` and `den`. -/
def floorLog2 (num den : Nat) : Int :=
  -- The quotient is above `2 ^ (e - 1)` and below `2 ^ (e + 1)`.
  let e : Int := (Nat.log2 num : Int) - Nat.log2 den
  let (n, d) := scaleRatio num den (-e)
  if d ≤ n then e else e - 1

/-- The magnitude nearest to `num / den`. -/
def roundRatio (num den : Nat) : Nat :=
  if num = 0 then 0
  else
    -- Below the least normal number the spacing stays the same.
    let e := max (floorLog2 num den - 52) (-1074)
    let (n, d) := scaleRatio num den (-e)
    min ((e + 1074).toNat * fractionLimit + roundDiv n d) infinity

/-- The number nearest to `num / den`, with the given sign. -/
def ofRatio (negative : Bool) (num den : Nat) : Binary64 :=
  ofMagnitude negative (roundRatio num den)

/-- The number nearest to an integer. -/
def ofInt (i : Int) : Binary64 :=
  ofRatio (i < 0) i.natAbs 1

/-- The number nearest to `digits * 10 ^ e`, where `digits` has at most `length`
    decimal digits. Far outside the range of the format the answer is zero or
    infinity without a power being formed. -/
def ofDecimal (negative : Bool) (digits length : Nat) (e : Int) : Binary64 :=
  if digits = 0 then ofMagnitude negative 0
  else if e > 400 then ofMagnitude negative infinity
  else if e + length < -400 then ofMagnitude negative 0
  else if 0 ≤ e then ofRatio negative (digits * Nat.pow 10 e.toNat) 1
  else ofRatio negative digits (Nat.pow 10 (-e).toNat)

/-- The product of two finite numbers, rounded. -/
def mul (x y : Binary64) : Binary64 :=
  let (n, d) := scaleRatio (x.significand * y.significand) 1 (x.exponent + y.exponent)
  ofRatio (x.negative != y.negative) n d

/-- The quotient of two finite numbers, rounded; the divisor is not zero. -/
def div (x y : Binary64) : Binary64 :=
  let (n, d) := scaleRatio x.significand y.significand (x.exponent - y.exponent)
  ofRatio (x.negative != y.negative) n d

/-- Numeric equality: the two zeros are equal, and NaN equals nothing. -/
def equal (x y : Binary64) : Bool :=
  !x.isNaN && !y.isNaN && (x.bits = y.bits || x.magnitude = 0 && y.magnitude = 0)

/-- The number with its sign changed. -/
def neg (x : Binary64) : Binary64 :=
  ofMagnitude (!x.negative) x.magnitude

def positiveInfinity : Binary64 := ofMagnitude false infinity

def negativeInfinity : Binary64 := ofMagnitude true infinity

/-- The NaN with only the top bit of the fraction set. -/
def nan : Binary64 := ofMagnitude false (infinity + fractionLimit / 2)

end Binary64

end DocTree
