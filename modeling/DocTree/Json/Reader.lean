import DocTree.Json.Error
import DocTree.Tree

/-!
# Reading JSON

A recursive-descent reader for JSON texts. Each function takes the characters
that are left and returns what it read together with what is left after it.

Brackets may nest `maxNesting` deep; the nesting that is still allowed is the
argument on which `value` recurses. The loops over the items of a list, the members
of an object and the characters of a string count down the length of the text, which
no loop can exhaust since each turn reads a character.

A number without fraction or exponent that fits into 64 bits, signed or not, is an
integer, except that `-0` is a float. Any other number is computed from at most
19 or 20 significant digits, those that fit into 64 bits, and a power of ten: the
digits are rounded to a float, which is then multiplied or divided by the rounded
power. Two roundings may differ from one in the last place.

## Main definitions

* `Json.value`: one value.
* `Json.parse`: a whole text.
-/

namespace DocTree

namespace Json

/-- The outcome of reading: usually what was read and what is left. -/
abbrev Read := Except Fault

def isSpace (c : Char) : Bool :=
  c = ' ' || c = '\n' || c = '\t' || c = '\r'

def skipSpace (cs : List Char) : List Char :=
  cs.dropWhile isSpace

/-- The value of a decimal digit. -/
def digit? (c : Char) : Option Nat :=
  if c.isDigit then some (c.toNat - '0'.toNat) else none

/-! ## Numbers -/

/-- The integers of significant digits are below this. -/
def significandLimit : Nat := UInt64.size

/-- The largest power of ten that is a float, as an exponent. -/
def maxPower : Nat := 308

/-- `10 ^ n` rounded. -/
def power10 (n : Nat) : Binary64 :=
  Binary64.ofRatio false (Nat.pow 10 n) 1

/-- Multiplies or divides by the rounded `10 ^ |e|`, in steps of the largest power.
    There is no answer for a number beyond the largest float. After four divisions
    nothing but zero is left of a significand. -/
def scale10 : Nat → Binary64 → Int → Option Binary64
  | 0, x, _ => some x
  | fuel + 1, x, e =>
    if e.natAbs ≤ maxPower then
      if 0 ≤ e then some (x.mul (power10 e.natAbs)) |>.filter Binary64.isFinite
      else some (x.div (power10 e.natAbs))
    else if x.magnitude = 0 then some x
    else if 0 ≤ e then none
    else scale10 fuel (x.div (power10 maxPower)) (e + maxPower)

/-- The float `± significand * 10 ^ e`. -/
def float (negative : Bool) (significand : Nat) (e : Int) (rest : List Char) :
    Read (Tree × List Char) :=
  match scale10 5 (Binary64.ofRatio false significand 1) e with
  | some x => .ok (.float (if negative then x.neg else x), rest)
  | none => .error (.here .numberOutOfRange rest)

/-- The largest exponent that is computed with. -/
def exponentLimit : Int := Int32.maxValue.toInt

/-- An exponent confined to the numbers that are computed with. -/
def confineExponent (e : Int) : Int :=
  max Int32.minValue.toInt (min exponentLimit e)

/-- The digits of an exponent, up to one that makes it too large. The flag tells whether
    there was one, which is read then. -/
def exponentDigits : Nat → List Char → Nat × Bool × List Char
  | n, [] => (n, false, [])
  | n, c :: cs =>
    match digit? c with
    | none => (n, false, c :: cs)
    | some d =>
      if exponentLimit < 10 * n + d then (n, true, cs) else exponentDigits (10 * n + d) cs

/-- The part of a number after the `e`. -/
def exponentPart (negative : Bool) (significand : Nat) (e : Int) (cs : List Char) :
    Read (Tree × List Char) :=
  let (down, cs) :=
    match cs with
    | '+' :: r => (false, r)
    | '-' :: r => (true, r)
    | r => (false, r)
  match cs with
  | [] => .error (.here .endInValue [])
  | c :: r =>
    match digit? c with
    | none => .error (.next .invalidNumber (c :: r))
    | some d =>
      match exponentDigits d r with
      | (n, false, rest) =>
        float negative significand (confineExponent (if down then e - n else e + n)) rest
      | (_, true, rest) =>
        -- So large an exponent leaves a zero as it is, and a negative one makes zero of anything.
        if significand ≠ 0 ∧ ¬down then .error (.here .numberOutOfRange rest)
        else .ok (.float (.ofMagnitude negative 0), rest.dropWhile Char.isDigit)

/-- What may follow the digits of a number that is a float already. -/
def floatTail (negative : Bool) (significand : Nat) (e : Int) (cs : List Char) :
    Read (Tree × List Char) :=
  match cs with
  | 'e' :: r => exponentPart negative significand e r
  | 'E' :: r => exponentPart negative significand e r
  | r => float negative significand e r

/-- Digits appended to a significand as long as it stays below the limit: the new
    significand, how many digits were appended, and what is left. -/
def appendDigits : Nat → Nat → List Char → Nat × Nat × List Char
  | significand, count, [] => (significand, count, [])
  | significand, count, c :: cs =>
    match digit? c with
    | none => (significand, count, c :: cs)
    | some d =>
      if 10 * significand + d < significandLimit then
        appendDigits (10 * significand + d) (count + 1) cs
      else (significand, count, c :: cs)

/-- The part of a number after the decimal point. Digits for which the significand has
    no room are passed over. -/
def fractionPart (negative : Bool) (significand : Nat) (e : Int) (cs : List Char) :
    Read (Tree × List Char) :=
  match cs with
  | [] => .error (.here .endInValue [])
  | c :: r =>
    if c.isDigit then
      let (significand, count, rest) := appendDigits significand 0 (c :: r)
      floatTail negative significand (e - count) (rest.dropWhile Char.isDigit)
    else .error (.next .invalidNumber (c :: r))

/-- The rest of a number whose significand is complete. Of the integer digits that follow
    it only the number counts. -/
def numberTail (negative : Bool) (significand : Nat) (cs : List Char) : Read (Tree × List Char) :=
  let more := (cs.takeWhile Char.isDigit).length
  match cs.dropWhile Char.isDigit with
  | '.' :: r => fractionPart negative significand more r
  | 'e' :: r => exponentPart negative significand more r
  | 'E' :: r => exponentPart negative significand more r
  | r =>
    if 0 < more then float negative significand more r
    else if ¬negative then .ok (.integer significand, r)
    else if 0 < significand ∧ Int64.minValue.toInt ≤ -significand then
      .ok (.integer (-significand), r)
    else .ok (.float (.ofRatio true significand 1), r)

/-- A number after its sign. A leading zero stands alone. -/
def number (negative : Bool) (cs : List Char) : Read (Tree × List Char) :=
  match cs with
  | [] => .error (.here .endInValue [])
  | '0' :: r =>
    match r with
    | c :: _ =>
      if c.isDigit then .error (.next .invalidNumber r) else numberTail negative 0 r
    | [] => numberTail negative 0 r
  | c :: r =>
    if c.isDigit then
      let (significand, _, rest) := appendDigits 0 0 (c :: r)
      numberTail negative significand rest
    else .error (.next .invalidNumber (c :: r))

/-! ## Strings -/

/-- The value of a hexadecimal digit. -/
def hexDigit? (c : Char) : Option Nat :=
  if c.isDigit then some (c.toNat - '0'.toNat)
  else if 'a' ≤ c ∧ c ≤ 'f' then some (c.toNat - 'a'.toNat + 10)
  else if 'A' ≤ c ∧ c ≤ 'F' then some (c.toNat - 'A'.toNat + 10)
  else none

/-- Four hexadecimal digits. The four bytes are read before they are looked at. -/
def hex4 (cs : List Char) : Read (Nat × List Char) :=
  if Utf8.byteLength cs < 4 then .error (.here .endInString [])
  else
    let invalid : Read (Nat × List Char) := .error ⟨.invalidEscape, Utf8.byteLength cs - 4⟩
    match cs with
    | a :: b :: c :: d :: r =>
      match hexDigit? a, hexDigit? b, hexDigit? c, hexDigit? d with
      | some a, some b, some c, some d => .ok (((a * 16 + b) * 16 + c) * 16 + d, r)
      | _, _, _, _ => invalid
    | _ => invalid

/-- Reads one character that has to be `expected` for the second half of a surrogate
    pair to follow. -/
def pairMark (expected : Char) (cs : List Char) : Read (List Char) :=
  match cs with
  | [] => .error (.here .endInString [])
  | c :: r => if c = expected then .ok r else .error (.next .endOfHexEscape (c :: r))

/-- The character of an escape `\u`, after the `u`. A leading surrogate needs a second
    escape with a trailing one. -/
def unicodeEscape (cs : List Char) : Read (Char × List Char) := do
  let (n, cs) ← hex4 cs
  if 0xDC00 ≤ n ∧ n < 0xE000 then
    .error (.here .loneSurrogate cs)
  else if 0xD800 ≤ n ∧ n < 0xDC00 then
    let cs ← pairMark '\\' cs
    let cs ← pairMark 'u' cs
    let (m, cs) ← hex4 cs
    if 0xDC00 ≤ m ∧ m < 0xE000 then
      .ok (Char.ofNat ((n - 0xD800) * 0x400 + (m - 0xDC00) + 0x10000), cs)
    else .error (.here .loneSurrogate cs)
  else .ok (Char.ofNat n, cs)

/-- The character of an escape, after the backslash. -/
def escape (cs : List Char) : Read (Char × List Char) :=
  match cs with
  | [] => .error (.here .endInString [])
  | '"' :: r => .ok ('"', r)
  | '\\' :: r => .ok ('\\', r)
  | '/' :: r => .ok ('/', r)
  | 'b' :: r => .ok ('\x08', r)
  | 'f' :: r => .ok ('\x0c', r)
  | 'n' :: r => .ok ('\n', r)
  | 'r' :: r => .ok ('\r', r)
  | 't' :: r => .ok ('\t', r)
  | 'u' :: r => unicodeEscape r
  | r => .error (.next .invalidEscape r)

/-- The characters of a string up to its closing quote. -/
def stringChars : Nat → List Char → Read (List Char × List Char)
  | 0, cs => .error (.here .endInString cs)
  | _, [] => .error (.here .endInString [])
  | fuel + 1, c :: cs =>
    if c = '"' then .ok ([], cs)
    else if c = '\\' then do
      let (d, rest) ← escape cs
      let (ds, rest) ← stringChars fuel rest
      .ok (d :: ds, rest)
    else if c < ' ' then .error (.next .controlCharacter (c :: cs))
    else do
      let (ds, rest) ← stringChars fuel cs
      .ok (c :: ds, rest)

/-- A string after its opening quote. -/
def string (cs : List Char) : Read (String × List Char) := do
  let (ds, rest) ← stringChars (cs.length + 1) cs
  .ok (String.ofList ds, rest)

/-! ## Values -/

/-- The rest of a literal such as `null`. -/
def literal (expected : List Char) (t : Tree) (cs : List Char) : Read (Tree × List Char) :=
  match expected, cs with
  | [], cs => .ok (t, cs)
  | _ :: _, [] => .error (.here .endInValue [])
  | e :: es, c :: r =>
    if c = e then literal es t r else .error (.next .expectedLiteral (c :: r))

/-- The items of a list and the closing bracket. Before every item but the first there is
    a comma. -/
def listItems (item : List Char → Read (Tree × List Char)) :
    Nat → Bool → List Char → Read (List Tree × List Char)
  | 0, _, cs => .error (.here .endInList cs)
  | fuel + 1, first, cs =>
    let more (cs : List Char) : Read (List Tree × List Char) := do
      let (t, rest) ← item cs
      let (ts, rest) ← listItems item fuel false rest
      .ok (t :: ts, rest)
    match skipSpace cs with
    | [] => .error (.here .endInList [])
    | ']' :: r => .ok ([], r)
    | c :: r =>
      if first then more (c :: r)
      else if c = ',' then
        match skipSpace r with
        | [] => .error (.here .endInValue [])
        | ']' :: r => .error (.next .trailingComma (']' :: r))
        | r => more r
      else .error (.next .expectedCommaOrBracket (c :: r))

/-- The colon after the name of a member. -/
def colon (cs : List Char) : Read (List Char) :=
  match skipSpace cs with
  | [] => .error (.here .endInObject [])
  | ':' :: r => .ok r
  | r => .error (.next .expectedColon r)

/-- The members of an object and the closing brace. -/
def objectMembers (item : List Char → Read (Tree × List Char)) :
    Nat → Bool → List Char → Read (List (String × Tree) × List Char)
  | 0, _, cs => .error (.here .endInObject cs)
  | fuel + 1, first, cs =>
    let more (cs : List Char) : Read (List (String × Tree) × List Char) :=
      match cs with
      | '"' :: r => do
        let (s, rest) ← string r
        let rest ← colon rest
        let (t, rest) ← item rest
        let (ms, rest) ← objectMembers item fuel false rest
        .ok ((s, t) :: ms, rest)
      | r => .error (.next .keyNotString r)
    match skipSpace cs with
    | [] => .error (.here .endInObject [])
    | '\x7d' :: r => .ok ([], r)
    | c :: r =>
      if first then more (c :: r)
      else if c = ',' then
        match skipSpace r with
        | [] => .error (.here .endInValue [])
        | '\x7d' :: r => .error (.next .trailingComma ('\x7d' :: r))
        | r => more r
      else .error (.next .expectedCommaOrBrace (c :: r))

/-- A value that is not a list or an object, from a first character that is no space. -/
def scalar (c : Char) (r : List Char) : Read (Tree × List Char) :=
  match c with
  | 'n' => literal ['u', 'l', 'l'] .null r
  | 't' => literal ['r', 'u', 'e'] (.bool true) r
  | 'f' => literal ['a', 'l', 's', 'e'] (.bool false) r
  | '-' => number true r
  | '"' => do
    let (s, rest) ← string r
    .ok (.string s, rest)
  | c =>
    if c.isDigit then number false (c :: r) else .error (.next .expectedValue (c :: r))

/-- One value, with at most this many brackets nested in it. -/
def value : Nat → List Char → Read (Tree × List Char)
  | nesting, cs =>
    match skipSpace cs with
    | [] => .error (.here .endInValue [])
    | '[' :: r =>
      match nesting with
      | 0 => .error (.next .nestedTooDeep ('[' :: r))
      | nesting + 1 => do
        let (ts, rest) ← listItems (value nesting) (r.length + 1) true r
        .ok (.list ts, rest)
    | '\x7b' :: r =>
      match nesting with
      | 0 => .error (.next .nestedTooDeep ('\x7b' :: r))
      | nesting + 1 => do
        let (ms, rest) ← objectMembers (value nesting) (r.length + 1) true r
        .ok (.object ms, rest)
    | c :: r => scalar c r

/-- How deep brackets may nest. -/
def maxNesting : Nat := 127

/-- The tree of a JSON text: one value, with nothing but space around it. -/
def parse (text : String) : Except SyntaxError Tree :=
  let cs := text.toList
  let whole : Read Tree := do
    let (t, rest) ← value maxNesting cs
    match skipSpace rest with
    | [] => .ok t
    | r => .error (.next .trailingCharacters r)
  whole.mapError (.locate cs)

end Json

end DocTree
