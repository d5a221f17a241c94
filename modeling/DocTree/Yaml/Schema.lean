import DocTree.Binary64.Shortest
import DocTree.Tree
import DocTree.Yaml.Tag
import DocTree.Yaml.Token.Scalar

/-!
# What Plain Scalars Mean

A scalar without quotes may be null, a boolean or a number, by its spelling. Numbers are
decimal, or hexadecimal, octal or binary behind `0x`, `0o` and `0b`. Digits behind a
leading zero are no number, and neither is a decimal beyond the largest float.

The writer uses the same rules to find out which strings need quotes.

## Main definitions

* `Meaning`: what a spelling means.
* `meaning`: the meaning of a plain scalar.
* `taggedDatum`: the datum of a scalar with a tag.
-/

namespace DocTree

namespace Yaml

/-- What a spelling means. -/
inductive Meaning where
  | null
  | bool (b : Bool)
  | integer (i : Int)
  | float (x : Binary64)
  | text

def isNull (cs : List Char) : Bool :=
  ["null", "Null", "NULL", "~"].any (·.toList = cs)

def bool? (cs : List Char) : Option Bool :=
  if ["true", "True", "TRUE"].any (·.toList = cs) then some true
  else if ["false", "False", "FALSE"].any (·.toList = cs) then some false
  else none

/-! ## Integers -/

def isSign (c : Char) : Bool :=
  c = '+' || c = '-'

/-- A text without one plus sign in front. -/
def dropPlus : List Char → List Char
  | '+' :: cs => cs
  | cs => cs

/-- Several digits after a leading zero, perhaps behind a sign. -/
def isZeroLed (cs : List Char) : Bool :=
  match (match cs with | c :: r => if isSign c then r else cs | [] => []) with
  | '0' :: d :: ds => (d :: ds).all Char.isDigit
  | _ => false

/-- The number of digits in a base of at most sixteen. -/
def digits? (base : Nat) (cs : List Char) : Option Nat :=
  if cs.isEmpty then none
  else cs.foldlM (fun n c => ((hexDigit? c).filter (· < base)).map (base * n + ·)) 0

/-- The number after one of the base marks. -/
def based? : List Char → Option Nat
  | '0' :: 'x' :: cs => digits? 16 cs
  | '0' :: 'o' :: cs => digits? 8 cs
  | '0' :: 'b' :: cs => digits? 2 cs
  | _ => none

/-- The size of an integer without its sign. -/
def integerSize? (cs : List Char) : Option Nat :=
  (based? cs).or (digits? 10 cs)

/-- The integer of a spelling, if it fits into 128 bits, with or without a sign. -/
def integer? (cs : List Char) : Option Int :=
  if isZeroLed cs then none
  else
    match cs with
    | '-' :: r => ((integerSize? r).filter (· ≤ Nat.pow 2 127)).map fun n => -(n : Int)
    | _ => ((integerSize? (dropPlus cs)).filter (· < Nat.pow 2 128)).map fun n => (n : Int)

/-! ## Floats -/

/-- The exponent of a decimal: none, or a mark, a sign and digits. -/
def exponent? : List Char → Option Int
  | [] => some 0
  | c :: cs => if c = 'e' || c = 'E' then Decimal.signed? cs else none

/-- A decimal without a sign, as its digits, how many there are, and a power of ten. There are
    digits before or after the point. -/
def decimal? (cs : List Char) : Option (Nat × Nat × Int) :=
  let whole := cs.takeWhile Char.isDigit
  let (fraction, rest) :=
    match cs.dropWhile Char.isDigit with
    | '.' :: r => (r.takeWhile Char.isDigit, r.dropWhile Char.isDigit)
    | r => ([], r)
  let ds := whole ++ fraction
  if ds.isEmpty then none
  else (exponent? rest).map fun e => (Nat.ofDigitChars 10 ds 0, ds.length, e - fraction.length)

/-- The float of a decimal with at most a minus sign in front. -/
def decimalFloat? (cs : List Char) : Option Binary64 :=
  let (negative, size) :=
    match cs with
    | '-' :: r => (true, r)
    | r => (false, r)
  (decimal? size).bind fun (ds, length, e) =>
    (Binary64.ofDecimal negative ds length e) |> fun x => if x.isFinite then some x else none

/-- The float of a spelling. -/
def float? (cs : List Char) : Option Binary64 :=
  let unsigned := dropPlus cs
  -- A plus sign is gone, and another sign follows.
  if unsigned.length < cs.length && unsigned.head?.any isSign then none
  else if [".inf", ".Inf", ".INF"].any (·.toList = unsigned) then some .positiveInfinity
  else if ["-.inf", "-.Inf", "-.INF"].any (·.toList = cs) then some .negativeInfinity
  else if [".nan", ".NaN", ".NAN"].any (·.toList = cs) then some .nan
  else decimalFloat? unsigned

/-! ## Scalars -/

/-- The meaning of a plain scalar. -/
def meaning (cs : List Char) : Meaning :=
  if cs.isEmpty || isNull cs then .null
  else
    match bool? cs, integer? cs with
    | some b, _ => .bool b
    | none, some i => .integer i
    | none, none =>
      if isZeroLed cs then .text
      else
        match float? cs with
        | some x => .float x
        | none => .text

/-- The datum of an integer that has been read. It has to fit into 64 bits, with or without a
    sign. -/
def integerDatum (i : Int) : Read Datum :=
  if Int64.minValue.toInt ≤ i ∧ i < UInt64.size then .ok (.integer i)
  else .error .integerTooLarge

/-- The datum of a plain scalar. -/
def plainDatum (cs : List Char) : Read Datum :=
  match meaning cs with
  | .null => .ok .null
  | .bool b => .ok (.bool b)
  | .integer i => integerDatum i
  | .float x => .ok (.float x)
  | .text => .ok (.string (String.ofList cs))

/-- The datum of a scalar with a tag. The tags of null, booleans, integers and floats have to fit
    the content, whether it has quotes or not. The name of a local tag stays with the datum,
    and a local tag whose name is no text changes nothing. Any other tag makes it a string. -/
def taggedDatum (tag : Tag) (plain : Bool) (cs : List Char) : Read Datum :=
  let fit {α : Type} (a : Option α) (datum : α → Read Datum) : Read Datum :=
    match a with
    | some a => datum a
    | none => .error .contentUnlikeTag
  let text := Datum.string (String.ofList cs)
  if tag = .standard "bool" then fit (bool? cs) fun b => .ok (.bool b)
  else if tag = .standard "int" then fit (integer? cs) integerDatum
  else if tag = .standard "float" then fit (float? cs) fun x => .ok (.float x)
  else if tag = .standard "null" then
    if isNull cs then .ok .null else .error .contentUnlikeTag
  else
    match tag.localName? with
    | some name => .ok (.tagged name text)
    | none => if tag.isLocal && plain then plainDatum cs else .ok text

end Yaml

end DocTree
