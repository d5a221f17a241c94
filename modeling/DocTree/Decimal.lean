/-!
# Decimal Text

Integers as decimal text, in both directions, over lists of characters. Keys,
selector arguments and number literals all go through these few functions.

`canonical?` reads a text only if it is the one `ofInt` writes: no plus sign,
no leading zero, no minus zero. `signed?` is the lenient reader for a number
somebody typed, with an optional sign of either kind and any leading zeros.

## Main definitions

* `Decimal.ofNat`, `Decimal.ofInt`: the digits of a number.
* `Decimal.natural?`: a number from a non-empty run of digits.
* `Decimal.signed?`: a number from digits after an optional sign.
* `Decimal.canonical?`: a number from its canonical text.
* `Decimal.int64?`: an integer as a 64-bit one, if it is in range.
-/

namespace DocTree

namespace Decimal

/-- The decimal digits of a natural number, most significant first. -/
def ofNat (n : Nat) : List Char :=
  Nat.toDigits 10 n

/-- The canonical decimal text of an integer. -/
def ofInt : Int → List Char
  | .ofNat n => ofNat n
  | .negSucc n => '-' :: ofNat (n + 1)

/-- The number a non-empty run of digits denotes. -/
def natural? (cs : List Char) : Option Nat :=
  if cs ≠ [] ∧ cs.all Char.isDigit then some (Nat.ofDigitChars 10 cs 0) else none

/-- The number denoted by digits after at most one sign. -/
def signed? : List Char → Option Int
  | '-' :: cs => (natural? cs).map fun n => -(n : Int)
  | '+' :: cs => (natural? cs).map fun n => (n : Int)
  | cs => (natural? cs).map fun n => (n : Int)

/-- The number whose canonical text this is. -/
def canonical? (cs : List Char) : Option Int :=
  (signed? cs).filter fun i => ofInt i = cs

/-- The 64-bit integer of this value, if there is one. -/
def int64? (i : Int) : Option Int64 :=
  if Int64.minValue.toInt ≤ i ∧ i ≤ Int64.maxValue.toInt then some (Int64.ofInt i) else none

end Decimal

end DocTree
