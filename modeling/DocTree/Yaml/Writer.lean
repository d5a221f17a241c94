import DocTree.Utf8
import DocTree.Yaml.Schema

/-!
# Writing YAML

The text of a tree in block style, indented by two spaces a level. Lines are never
broken for their length.

A string is written plain if it reads back as itself that way. A string that would read
as something else is put between single quotes, one that holds a line feed becomes a
literal block, and what neither of these can hold is written between double quotes, with
escapes. A key of more than 128 bytes, or with a break in it, stands behind a question
mark.

The text is written onto a *page*, which knows the column and whether the line holds
nothing but indentation and marks so far; an item may then start on the same line.

## Main definitions

* `Page`: the text so far.
* `Traits`: what a string is like, as far as it matters for how to write it.
* `Yaml.write`: the text of a tree.
-/

namespace DocTree

namespace Yaml

/-! ## Pages -/

/-- The text so far. -/
structure Page where
  /-- The characters, last first. -/
  written : List Char
  column : Nat
  /-- A space is not needed before the next mark. -/
  spaced : Bool
  /-- The line holds only indentation, and marks that count as such. -/
  indented : Bool

namespace Page

def blank : Page :=
  ⟨[], 0, true, true⟩

/-- Writes a character that is no break. -/
def put (p : Page) (c : Char) : Page :=
  { p with written := c :: p.written, column := p.column + 1 }

/-- Writes characters that are no breaks. -/
def putAll (p : Page) (cs : List Char) : Page :=
  cs.foldl put p

/-- Writes a break. -/
def endLine (p : Page) (c : Char) : Page :=
  { p with written := c :: p.written, column := 0 }

/-- Writes a mark. The flags tell whether it needs a space before it, and whether it counts as
    indentation. No mark leaves a space behind it, except an opening bracket, which
    needs none. -/
def mark (p : Page) (cs : List Char) (needsSpace counts : Bool) : Page :=
  let p := if needsSpace && !p.spaced then p.put ' ' else p
  let p := p.putAll cs
  { p with spaced := false, indented := p.indented && counts }

/-- Goes to a column of indentation, on a new line unless the page is there already. -/
def indentTo (p : Page) (indent : Nat) : Page :=
  let p :=
    if !p.indented || indent < p.column || (p.column = indent && !p.spaced) then p.endLine '\n'
    else p
  let p := p.putAll (List.replicate (indent - p.column) ' ')
  { p with spaced := true, indented := true }

/-- After text of a scalar. -/
def inText (p : Page) : Page :=
  { p with spaced := false, indented := false }

end Page

/-! ## Strings -/

/-- The characters that are written as themselves, a break or not. -/
def isPrintable (c : Char) : Bool :=
  c = '\n' || (' ' ≤ c && c ≤ '~') || (0xA0 ≤ c.toNat && c.toNat ≤ 0xD7FF)
    || (0xE000 ≤ c.toNat && c.toNat ≤ 0xFFFD && c ≠ '\ufeff') || 0x10000 ≤ c.toNat

/-- What a string is like, as far as it matters for how to write it. -/
structure Traits where
  multiline : Bool
  plainAllowed : Bool
  singleAllowed : Bool
  blockAllowed : Bool

/-- A space, a break or nothing, as the neighbour of a character. -/
def isGapChar (c : Char) : Bool :=
  isBlank c || isBreak c || c = '\x00'

/-- The first character forbids a plain scalar, given what follows it. -/
def isLeadingMark (c : Char) (rest : List Char) : Bool :=
  "#,[]&*!|>'\x22%@\x60\x7b\x7d".toList.contains c
    || (c = '?' || c = ':' || c = '-') && rest.head?.all isGapChar

/-- Some character after the first forbids a plain scalar: a colon before a gap, or a number
    sign after one. -/
def hasInnerMark : List Char → Bool
  | [] => false
  | [_] => false
  | a :: b :: r =>
    (b = ':' && r.head?.all isGapChar) || (b = '#' && isGapChar a) || hasInnerMark (b :: r)

/-- One character of the first class comes directly before one of the second. -/
def hasPair (p q : Char → Bool) : List Char → Bool
  | a :: b :: r => p a && q b || hasPair p q (b :: r)
  | _ => false

/-- Finds out what a string is like. -/
def Traits.of (cs : List Char) : Traits :=
  match cs with
  | [] => ⟨false, true, true, false⟩
  | c :: r =>
    let isSpace (d : Char) : Bool := d = ' '
    let outer (d : Char) : Bool := isSpace d || isBreak d
    let last := cs.getLast?.getD c
    let documentMark := ['-', '-', '-'].isPrefixOf cs || ['.', '.', '.'].isPrefixOf cs
    let marked := documentMark || isLeadingMark c r || hasInnerMark cs
    let multiline := cs.any isBreak
    let breakSpace := hasPair isBreak isSpace cs
    let special := hasPair isSpace isBreak cs || !cs.all isPrintable
    { multiline := multiline
      plainAllowed := !(marked || multiline || outer c || outer last || breakSpace || special)
      singleAllowed := !(breakSpace || special)
      blockAllowed := !(isSpace last || special) }

/-- How a scalar is written. -/
inductive Style where
  | plain
  | single
  | double
  | literal
deriving DecidableEq

/-- The style a string asks for by what it would mean without quotes. -/
def preferredStyle (cs : List Char) : Style :=
  if cs.contains '\n' then .literal
  else if isZeroLed cs then .single
  else
    match meaning cs with
    | .text => .plain
    | _ => .single

/-- The style a scalar gets. Before a colon there is no room for breaks. -/
def chooseStyle (preferred : Style) (key : Bool) (cs : List Char) : Style :=
  let t := Traits.of cs
  -- Each line can only turn to a more careful style; double quotes hold anything.
  let style := if key && t.multiline then .double else preferred
  let style := if style = .plain && (!t.plainAllowed || cs.isEmpty && key) then .single else style
  let style := if style = .single && !t.singleAllowed then .double else style
  if style = .literal && (!t.blockAllowed || key) then .double else style

def hexUpper (n : Nat) : Char :=
  "0123456789ABCDEF".toList.getD (n % 16) '0'

/-- The letter that stands for a character behind a backslash. -/
def escapeLetter? : Char → Option Char
  | '\x00' => some '0'
  | '\x07' => some 'a'
  | '\x08' => some 'b'
  | '\t' => some 't'
  | '\n' => some 'n'
  | '\x0b' => some 'v'
  | '\x0c' => some 'f'
  | '\r' => some 'r'
  | '\x1b' => some 'e'
  | '\x22' => some '\x22'
  | '\\' => some '\\'
  | '\u0085' => some 'N'
  | '\u00a0' => some '_'
  | '\u2028' => some 'L'
  | '\u2029' => some 'P'
  | _ => none

/-- The last `digits` hexadecimal digits of a number. -/
def hexText (digits n : Nat) : List Char :=
  (List.range digits).reverse.map fun i => hexUpper (n / Nat.pow 16 i)

/-- A character between double quotes. -/
def doubleChar (c : Char) : List Char :=
  if isPrintable c && !isBreak c && c ≠ '\x22' && c ≠ '\\' then [c]
  else
    match escapeLetter? c with
    | some d => ['\\', d]
    | none =>
      let n := c.toNat
      if n ≤ 0xFF then '\\' :: 'x' :: hexText 2 n
      else if n ≤ 0xFFFF then '\\' :: 'u' :: hexText 4 n
      else '\\' :: 'U' :: hexText 8 n

/-- Characters between single quotes, the flag telling whether a break comes right before. The
    first line feed of several is doubled, since it would fold; after breaks the text goes on
    with indentation. -/
def singleChars (indent : Nat) : Bool → Page → List Char → Page
  | broken, p, [] => if broken then p.indentTo indent else p
  | broken, p, c :: cs =>
    if c = ' ' then singleChars indent broken (p.put c) cs
    else if isBreak c then
      let p := if !broken && c = '\n' then p.endLine '\n' else p
      singleChars indent true { p.endLine c with indented := true } cs
    else
      let p := if broken then p.indentTo indent else p
      let p := if c = '\x27' then p.put c else p
      singleChars indent false { p.put c with indented := false } cs

/-- The lines of a literal block. A line that is empty gets no indentation. -/
def literalChars (indent : Nat) : Bool → Page → List Char → Page
  | _, p, [] => p
  | broken, p, c :: cs =>
    if isBreak c then literalChars indent true { p.endLine c with indented := true } cs
    else
      let p := if broken then p.indentTo indent else p
      literalChars indent false { p.put c with indented := false } cs

/-- The header of a literal block: the indentation if the first character hides it, and what to
    do with the breaks at the end. -/
def literalHeader (cs : List Char) : List Char :=
  let hint := if cs.head?.any (fun c => c = ' ' || isBreak c) then ['2'] else []
  let chomp :=
    match cs.reverse with
    | [] => ['-']
    | [c] => if isBreak c then ['+'] else ['-']
    | c :: d :: _ => if !isBreak c then ['-'] else if isBreak d then ['+'] else []
  '|' :: hint ++ chomp

/-- Writes a scalar in a style, with the lines after the first indented by `indent`. -/
def writeScalar (p : Page) (style : Style) (indent : Nat) (cs : List Char) : Page :=
  match style with
  | .plain =>
    let p := if !p.spaced && !cs.isEmpty then p.put ' ' else p
    (p.putAll cs).inText
  | .single =>
    ((singleChars indent false (p.mark ['\x27'] true false) cs).mark ['\x27'] false false).inText
  | .double =>
    (((p.mark ['\x22'] true false).putAll (cs.flatMap doubleChar)).mark ['\x22'] false false).inText
  | .literal =>
    let p := (p.mark (literalHeader cs) true false).endLine '\n'
    literalChars indent true { p with spaced := true, indented := true } cs

/-! ## Trees -/

/-- Floats have an exponent from `1e16` up and from `1e-6` down. -/
def floats : Binary64.Layout where
  leastPositional := -5
  pastPositional := 16
  plus := []
  nan := ".nan"
  infinite := ".inf"
  minusInfinite := "-.inf"

/-- A key that may stand right before its colon. -/
def isSimpleKey (cs : List Char) : Bool :=
  !(Traits.of cs).multiline && Utf8.byteLength cs ≤ 128

/-- Writes a string, as a key before its colon or not. -/
def writeString (p : Page) (key : Bool) (indent : Nat) (s : String) : Page :=
  let cs := s.toList
  writeScalar p (chooseStyle (preferredStyle cs) key cs) indent cs

/-- The column of what is nested in a block, of which there may be none around. -/
def deeper : Option Nat → Nat
  | none => 0
  | some indent => indent + 2

/-- The column of the lines of a scalar after its first. -/
def scalarIndent (outer : Option Nat) : Nat :=
  outer.getD 0 + 2

mutual

/-- Writes a tree inside a block, if there is one. The dashes of a list that is the value of a
    key are not indented, unless the list starts on the line of its mark. -/
def writeTree (outer : Option Nat) (inObject : Bool) (p : Page) : Tree → Page
  | .null => writeScalar p .plain (scalarIndent outer) "null".toList
  | .bool b => writeScalar p .plain (scalarIndent outer) (if b then "true" else "false").toList
  | .integer i => writeScalar p .plain (scalarIndent outer) (Decimal.ofInt i)
  | .float x => writeScalar p .plain (scalarIndent outer) (x.text floats).toList
  | .string s => writeString p false (scalarIndent outer) s
  | .list [] => (p.mark ['['] true false).mark [']'] false false
  | .list (t :: ts) =>
    let indent := if inObject && !p.indented then outer.getD 0 else deeper outer
    writeItems indent p (t :: ts)
  | .object [] => (p.mark ['\x7b'] true false).mark ['\x7d'] false false
  | .object (m :: ms) => writeMembers (deeper outer) p (m :: ms)

/-- Writes the items of a list, each behind a dash. -/
def writeItems (indent : Nat) (p : Page) : List Tree → Page
  | [] => p
  | t :: ts =>
    let p := (p.indentTo indent).mark ['-'] true true
    writeItems indent (writeTree (some indent) false p t) ts

/-- Writes the members of an object. -/
def writeMembers (indent : Nat) (p : Page) : List (String × Tree) → Page
  | [] => p
  | (s, t) :: ms =>
    let p := p.indentTo indent
    let p :=
      if isSimpleKey s.toList then
        (writeString p true (indent + 2) s).mark [':'] false false
      else
        let p := writeString (p.mark ['?'] true true) false (indent + 2) s
        (p.indentTo indent).mark [':'] true true
    writeMembers indent (writeTree (some indent) true p t) ms

end

/-- The text of a tree, with a break at the end. -/
def write (t : Tree) : String :=
  String.ofList ((writeTree none false .blank t).indentTo 0).written.reverse

end Yaml

end DocTree
