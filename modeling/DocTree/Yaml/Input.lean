import DocTree.Utf8
import DocTree.Yaml.Error

/-!
# YAML Input

The characters that are left of a text, with the place that reading has reached.
Columns decide the structure of a YAML text, so every step keeps count of them. A
line ends at a line feed, a carriage return, the pair of both, or one of three
Unicode breaks. All stand for a line feed in the content, except the Unicode line and
paragraph separators, which stand for themselves.

## Main definitions

* `Input`: what is left, and where.
* `Input.left`: a bound for what is left.
* `Input.skip`, `Input.skipBreak`, `Input.takeWhile`: steps.
* `isBreak`, `isBlank`, `isWordChar`, `isAllowed`: character classes.
-/

namespace DocTree

namespace Yaml

/-! ## Characters -/

/-- The characters a text may consist of. -/
def isAllowed (c : Char) : Bool :=
  c = '\t' || c = '\n' || c = '\r' || (' ' ≤ c && c ≤ '~') || c = '\u0085'
    || (0xA0 ≤ c.toNat && c.toNat ≤ 0xD7FF) || (0xE000 ≤ c.toNat && c.toNat ≤ 0xFFFD)
    || 0x10000 ≤ c.toNat

def isBreak (c : Char) : Bool :=
  c = '\n' || c = '\r' || c = '\u0085' || c = '\u2028' || c = '\u2029'

def isBlank (c : Char) : Bool :=
  c = ' ' || c = '\t'

/-- The characters of anchors, directive names and tag handles. -/
def isWordChar (c : Char) : Bool :=
  c.isAlphanum || c = '_' || c = '-'

/-- The characters that mean something of their own inside brackets. -/
def isFlowMark (c : Char) : Bool :=
  c = ',' || c = '[' || c = ']' || c = '\x7b' || c = '\x7d'

/-- A blank, a break or the end comes next. -/
def atGap : List Char → Bool
  | [] => true
  | c :: _ => isBlank c || isBreak c

/-- A break or the end comes next. -/
def atLineEnd : List Char → Bool
  | [] => true
  | c :: _ => isBreak c

/-! ## Steps -/

/-- The characters that are left, and the place they start at: how many bytes lie before it,
    the line, and the column in the line in characters, all counting from 0. -/
structure Input where
  rest : List Char
  /-- How many bytes the whole text has. -/
  size : Nat
  index : Nat
  line : Nat
  column : Nat

namespace Input

/-- All of a text. -/
def ofText (cs : List Char) : Input :=
  ⟨cs, Utf8.byteLength cs, 0, 0, 0⟩

/-- How many bytes are left. It bounds every loop over what is left, and unlike the number of
    characters it is known without a count. -/
def left (i : Input) : Nat :=
  i.size - i.index

/-- Passes over characters that are no breaks. -/
def skip (i : Input) (n : Nat) : Input :=
  { i with
    rest := i.rest.drop n
    index := i.index + Utf8.byteLength (i.rest.take n)
    column := i.column + n }

/-- Passes over a break, if there is one. -/
def skipBreak (i : Input) : Input :=
  match i.rest with
  | '\r' :: '\n' :: r => ⟨r, i.size, i.index + 2, i.line + 1, 0⟩
  | c :: r => if isBreak c then ⟨r, i.size, i.index + c.utf8Size, i.line + 1, 0⟩ else i
  | [] => i

/-- What the break that comes next stands for. -/
def breakText (i : Input) : List Char :=
  match i.rest with
  | c :: _ =>
    if c = '\u2028' || c = '\u2029' then [c] else if isBreak c then ['\n'] else []
  | [] => []

/-- The longest run of characters of a class without breaks, and the input after it. -/
def takeWhile (i : Input) (p : Char → Bool) : List Char × Input :=
  let run := i.rest.takeWhile p
  (run, i.skip run.length)

def skipWhile (i : Input) (p : Char → Bool) : Input :=
  (i.takeWhile p).2

/-- A line of three dashes or three dots starts here. -/
def atDocumentMark (i : Input) : Bool :=
  i.column = 0
    && (['-', '-', '-'].isPrefixOf i.rest || ['.', '.', '.'].isPrefixOf i.rest)
    && atGap (i.rest.drop 3)

/-- Passes over blanks and a comment, which have to take up the rest of the line, and over
    the break after them. -/
def finishLine (i : Input) (cause : Cause) : Read Input :=
  let i := i.skipWhile isBlank
  let i := if i.rest.head? = some '#' then i.skipWhile (!isBreak ·) else i
  if atLineEnd i.rest then .ok i.skipBreak else .error cause

end Input

end Yaml

end DocTree
