import DocTree.Binary64
import DocTree.Decimal

/-!
# Shortest Decimals

The text of a floating-point number: the fewest decimal digits that read back as
the same number, and of those the nearest to it.

A finite positive number is `m * 2 ^ e`. The reals that round to it form an
interval around it, half a gap to each side, ends included exactly when `m` is
even. The gap below is half as wide where the exponent changes. For one, two, …
digits the two neighbours of the number on that decimal grid are tested against
the interval; the first grid with a hit wins.

All lengths are counted in quarters of the gap above, so that they are integers.

## Main definitions

* `Binary64.shortest`: digits and decimal exponent.
* `Binary64.Layout`: how digits are laid out as text.
* `Binary64.text`: the text of a number in a layout.
-/

namespace DocTree

namespace Binary64

/-- The distance from a number down to the end of its rounding interval, in quarters
    of the gap above it. -/
def quartersBelow (m : Nat) (e : Int) : Nat :=
  if m = fractionLimit ∧ -1074 < e then 1 else 2

/-- The ratio of a quarter gap, `2 ^ (e - 2)`, to a grid step, `10 ^ p`. -/
def gridRatio (e p : Int) : Nat × Nat :=
  let (n, d) := scaleRatio 1 1 (e - 2)
  if 0 ≤ p then (n, d * Nat.pow 10 p.toNat) else (n * Nat.pow 10 (-p).toNat, d)

/-- The point of the grid of step `10 ^ p` that is nearest to `m * 2 ^ e` among those
    that round to it; a tie goes to the even point. -/
def nearestOnGrid (m : Nat) (e p : Int) : Option Nat :=
  let (n, d) := gridRatio e p
  let value := 4 * m * n
  let below := quartersBelow m e * n
  let above := 2 * n
  let closed := m % 2 = 0
  let low := value / d
  let toLow := value - low * d
  let toHigh := (low + 1) * d - value
  let lowHit := toLow < below ∨ closed ∧ toLow = below
  let highHit := toHigh < above ∨ closed ∧ toHigh = above
  if lowHit ∧ (¬highHit ∨ toLow < toHigh ∨ toLow = toHigh ∧ low % 2 = 0) then some low
  else if highHit then some (low + 1)
  else none

/-- The number of digits before the point of `m * 2 ^ e`: the least `k` with
    `m * 2 ^ e < 10 ^ k`. Scaling by a power of ten makes the smallest number whole. -/
def decimalMagnitude (m : Nat) (e : Int) : Int :=
  let (n, d) := scaleRatio (m * Nat.pow 10 400) 1 e
  ((Decimal.ofNat (n / d)).length : Int) - 400

/-- Drops trailing zeros of the digits `d`, of which there are at most `fuel`. -/
def dropZeros : Nat → Nat → Int → Nat × Int
  | 0, d, p => (d, p)
  | fuel + 1, d, p => if d % 10 = 0 ∧ d ≠ 0 then dropZeros fuel (d / 10) (p + 1) else (d, p)

/-- Tries grids of `17 - fuel` digits and more. Seventeen digits always suffice. -/
def shortestFrom (m : Nat) (e k : Int) : Nat → Nat × Int
  | 0 => (m, e)
  | fuel + 1 =>
    let p := k - (17 - fuel : Nat)
    match nearestOnGrid m e p with
    | some d => dropZeros 18 d p
    | none => shortestFrom m e k fuel

/-- The shortest decimal of a positive finite number: digits that do not end in zero,
    and a power of ten. -/
def shortest (x : Binary64) : Nat × Int :=
  shortestFrom x.significand x.exponent (decimalMagnitude x.significand x.exponent) 17

/-- How a number is laid out as text. -/
structure Layout where
  /-- The least scientific exponent that is still written without an exponent. -/
  leastPositional : Int
  /-- The least scientific exponent above those. -/
  pastPositional : Int
  /-- What stands before an exponent that is not negative. -/
  plus : List Char
  /-- The texts of NaN, infinity and minus infinity. -/
  nan : String
  infinite : String
  minusInfinite : String

/-- Digits with a power of ten, laid out without a sign. A whole number written without
    an exponent keeps one zero behind the point; a mantissa of one digit has no point. -/
def layOut (l : Layout) (ds : List Char) (p : Int) : List Char :=
  let scientific : Int := p + ds.length - 1
  if l.leastPositional ≤ scientific ∧ scientific < l.pastPositional then
    if 0 ≤ p then ds ++ List.replicate p.toNat '0' ++ ['.', '0']
    else if 0 ≤ scientific then
      ds.take (scientific.toNat + 1) ++ '.' :: ds.drop (scientific.toNat + 1)
    else ['0', '.'] ++ List.replicate (-scientific - 1).toNat '0' ++ ds
  else
    let mantissa := if ds.length ≤ 1 then ds else ds.take 1 ++ '.' :: ds.drop 1
    mantissa ++ 'e' :: (if 0 ≤ scientific then l.plus else []) ++ Decimal.ofInt scientific

/-- The text of a number. Zero keeps its sign. -/
def text (l : Layout) (x : Binary64) : String :=
  if x.isNaN then l.nan
  else if ¬x.isFinite then if x.negative then l.minusInfinite else l.infinite
  else
    let sign := if x.negative then ['-'] else []
    if x.magnitude = 0 then String.ofList (sign ++ ['0', '.', '0'])
    else
      let (d, p) := x.shortest
      String.ofList (sign ++ layOut l (Decimal.ofNat d) p)

end Binary64

end DocTree
