import DocTree.Yaml.Input

/-!
# YAML Scalars

The three ways to write a scalar: plain, between quotes, and as a block of lines. Each
function starts where the scalar starts and returns the content and the input after it.

Plain and quoted scalars may go on over several lines. What lies between two pieces of
text is a *gap*: blanks, or line breaks with blanks around them, which are dropped. A
gap without a break stands for its blanks. A single break folds into a space, and of
several the first is dropped, unless it is a Unicode separator.

## Main definitions

* `Gap`: what lies between two pieces of text.
* `plainScalar`, `quotedScalar`, `blockScalar`: the scalars.
-/

namespace DocTree

namespace Yaml

/-! ## Gaps -/

/-- Blanks before the first break, and what each break stands for. -/
structure Gap where
  blanks : Array Char
  breaks : Array (List Char)

namespace Gap

def isEmpty (g : Gap) : Bool :=
  g.blanks.isEmpty && g.breaks.isEmpty

def hasBreak (g : Gap) : Bool :=
  !g.breaks.isEmpty

/-- What the gap stands for. -/
def content (g : Gap) : List Char :=
  match g.breaks.toList with
  | [] => g.blanks.toList
  | first :: more =>
    -- An escaped break is empty, and no space stands for it.
    if first = ['\n'] then (if more.flatten.isEmpty then [' '] else more.flatten)
    else first ++ more.flatten

/-- Reads a gap on, from what was read of it. Where lines have to be indented, a tab in
    their indentation is an error. -/
def read (indent : Option Int) : Nat → Gap → Input → Read (Gap × Input)
  | 0, g, i => .ok (g, i)
  | fuel + 1, g, i =>
    match i.rest with
    | [] => .ok (g, i)
    | c :: _ =>
      if isBlank c then
        if g.hasBreak then
          if c = '\t' && indent.any ((i.column : Int) < ·) then .error .tabAsIndentation
          else read indent fuel g (i.skip 1)
        else read indent fuel { g with blanks := g.blanks.push c } (i.skip 1)
      else if isBreak c then
        read indent fuel { g with breaks := g.breaks.push i.breakText } i.skipBreak
      else .ok (g, i)

end Gap

/-! ## Plain scalars -/

/-- The text of a plain scalar up to the next gap or to a mark that ends it. Inside
    brackets a colon before another mark is an error. -/
def plainPiece (flow : Bool) : List Char → Read (List Char)
  | [] => .ok []
  | c :: r =>
    if isBlank c || isBreak c then .ok []
    else if flow && c = ':' && r.head?.any (fun d => isFlowMark d || d = '?') then
      .error .ambiguousColon
    else if (c = ':' && atGap r) || (flow && isFlowMark c) then .ok []
    else (plainPiece flow r).map (c :: ·)

/-- A plain scalar goes on, after `text` and a gap, as long as there is a piece of text that
    is indented by `indent`. The flag tells whether the last gap had a break. -/
def plainRest (flow : Bool) (indent : Int) : Nat → Array Char → Gap → Input →
    Read (Array Char × Bool × Input)
  | 0, text, gap, i => .ok (text, gap.hasBreak, i)
  | fuel + 1, text, gap, i =>
    if i.atDocumentMark || i.rest.head? = some '#' then .ok (text, gap.hasBreak, i)
    else do
      let piece ← plainPiece flow i.rest
      if piece.isEmpty then return (text, gap.hasBreak, i)
      let text := text ++ gap.content ++ piece
      let i := i.skip piece.length
      let (gap, i) ← Gap.read (some indent) (i.left + 1) ⟨#[], #[]⟩ i
      if gap.isEmpty || (!flow && (i.column : Int) < indent) then
        return (text, gap.hasBreak, i)
      plainRest flow indent fuel text gap i

/-- A plain scalar. The flag tells whether a line break follows it. -/
def plainScalar (flow : Bool) (indent : Int) (i : Input) :
    Read (List Char × Bool × Input) := do
  let (text, broken, i) ← plainRest flow indent (i.left + 1) #[] ⟨#[], #[]⟩ i
  return (text.toList, broken, i)

/-! ## Quoted scalars -/

/-- The value of a hexadecimal digit. -/
def hexDigit? (c : Char) : Option Nat :=
  if '0' ≤ c && c ≤ '9' then some (c.toNat - '0'.toNat)
  else if 'a' ≤ c && c ≤ 'f' then some (c.toNat - 'a'.toNat + 10)
  else if 'A' ≤ c && c ≤ 'F' then some (c.toNat - 'A'.toNat + 10)
  else none

/-- The number of the first `n` characters, as hexadecimal digits. -/
def hexNumber? : Nat → Nat → List Char → Option Nat
  | 0, value, _ => some value
  | _ + 1, _, [] => none
  | n + 1, value, c :: cs => (hexDigit? c).bind fun d => hexNumber? n (16 * value + d) cs

/-- The character of this number, if it is one. -/
def charOf? (n : Nat) : Option Char :=
  if n < 0xD800 ∨ 0xDFFF < n ∧ n ≤ 0x10FFFF then some (Char.ofNat n) else none

/-- What a backslash and a letter stand for. -/
def letterEscape? : Char → Option Char
  | '0' => some '\x00'
  | 'a' => some '\x07'
  | 'b' => some '\x08'
  | 't' => some '\t'
  | '\t' => some '\t'
  | 'n' => some '\n'
  | 'v' => some '\x0b'
  | 'f' => some '\x0c'
  | 'r' => some '\r'
  | 'e' => some '\x1b'
  | ' ' => some ' '
  | '\x22' => some '\x22'
  | '/' => some '/'
  | '\\' => some '\\'
  | 'N' => some '\u0085'
  | '_' => some '\u00a0'
  | 'L' => some '\u2028'
  | 'P' => some '\u2029'
  | _ => none

/-- The number of digits after a letter that announces a character number. -/
def codeLength? : Char → Option Nat
  | 'x' => some 2
  | 'u' => some 4
  | 'U' => some 8
  | _ => none

/-- The character of an escape, and the number of characters the escape has after the
    backslash. -/
def escape? : List Char → Option (Char × Nat)
  | [] => none
  | c :: r =>
    match codeLength? c with
    | some n => ((hexNumber? n 0 r).bind charOf?).map (·, n + 1)
    | none => (letterEscape? c).map (·, 1)

/-- The text between quotes up to the next gap or the closing quote. The flag tells whether it
    ended with an escaped line break, which is read then. -/
def quotedPiece (single : Bool) : Nat → Input → Read (List Char × Bool × Input)
  | 0, i => .ok ([], false, i)
  | fuel + 1, i =>
    let more (d : Char) (n : Nat) : Read (List Char × Bool × Input) := do
      let (ds, broken, i) ← quotedPiece single fuel (i.skip n)
      return (d :: ds, broken, i)
    match i.rest with
    | [] => .ok ([], false, i)
    | c :: r =>
      if isBlank c || isBreak c then .ok ([], false, i)
      else if single && c = '\x27' then
        if r.head? = some '\x27' then more c 2 else .ok ([], false, i)
      else if !single && c = '\x22' then .ok ([], false, i)
      else if !single && c = '\\' then
        if r.head?.any isBreak then .ok ([], true, (i.skip 1).skipBreak)
        else
          match escape? r with
          | some (d, n) => more d (n + 1)
          | none => .error .badEscape
      else more c 1

/-- The rest of a quoted scalar, after `text`, and its closing quote. After an escaped break
    the gap counts as having had its first break. -/
def quotedRest (single : Bool) : Nat → Array Char → Input → Read (Array Char × Input)
  | 0, _, _ => .error .unclosedQuote
  | fuel + 1, text, i =>
    if i.atDocumentMark then .error .markInQuotes
    else if i.rest.isEmpty then .error .unclosedQuote
    else do
      let (piece, escapedBreak, i) ← quotedPiece single (i.left + 1) i
      if i.rest.head? = some (if single then '\x27' else '\x22') then
        return (text ++ piece, i.skip 1)
      let start : Gap := ⟨#[], if escapedBreak then #[[]] else #[]⟩
      let (gap, i) ← Gap.read none (i.left + 1) start i
      quotedRest single fuel (text ++ piece ++ gap.content) i

/-- A quoted scalar. -/
def quotedScalar (single : Bool) (i : Input) : Read (List Char × Input) := do
  let (text, i) ← quotedRest single (i.left + 1) #[] (i.skip 1)
  return (text.toList, i)

/-! ## Block scalars -/

/-- What becomes of the line breaks at the end of a block. -/
inductive Chomping where
  /-- The last one goes, and empty lines with it. -/
  | strip
  /-- The last one stays, empty lines go. -/
  | clip
  | keep
deriving DecidableEq

def chomping? : Char → Option Chomping
  | '-' => some .strip
  | '+' => some .keep
  | _ => none

/-- The header of a block after its first character: how to treat the end, and how far the
    block is indented, in either order. Zero is no indentation. -/
def blockHeader (i : Input) : Read (Chomping × Option Nat × Input) := do
  let chomping (i : Input) : Option Chomping × Input :=
    match i.rest.head?.bind chomping? with
    | some m => (some m, i.skip 1)
    | none => (none, i)
  let increment (i : Input) : Read (Option Nat × Input) :=
    match i.rest with
    | c :: _ =>
      if c = '0' then .error .badBlockHeader
      else if c.isDigit then .ok (some (c.toNat - '0'.toNat), i.skip 1)
      else .ok (none, i)
    | [] => .ok (none, i)
  let (before, i) := chomping i
  let (n, i) ← increment i
  -- The sign comes behind the number only if there is none before it.
  let (after, i) := if before.isNone && n.isSome then chomping i else (none, i)
  return ((before.or after).getD .clip, n, i)

/-- Passes over spaces up to a column, or all of them while the indentation is not known. -/
def skipIndent (indent : Option Nat) (i : Input) : Input :=
  let spaces := (i.rest.takeWhile (· = ' ')).length
  i.skip (match indent with
    | some n => min spaces (n - i.column)
    | none => spaces)

/-- Empty lines of a block: what their breaks stand for, and the greatest column reached. -/
def blockBreaks (indent : Option Nat) : Nat → Array Char → Nat → Input →
    Read (Array Char × Nat × Input)
  | 0, breaks, widest, i => .ok (breaks, widest, i)
  | fuel + 1, breaks, widest, i =>
    let i := skipIndent indent i
    let widest := max widest i.column
    if indent.all (i.column < ·) && i.rest.head? = some '\t' then .error .tabAsIndentation
    else if i.rest.head?.any isBreak then
      blockBreaks indent fuel (breaks ++ i.breakText) widest i.skipBreak
    else .ok (breaks, widest, i)

/-- The lines of a block. Between two lines stands the break after the first of them, which
    folds in a folded block unless one of the lines starts with a blank, and then the breaks
    of the empty lines. -/
def blockLines (folded : Bool) (indent : Nat) (chomping : Chomping) :
    Nat → Array Char → List Char → Array Char → Bool → Input → Read (Array Char × Input)
  | 0, text, _, _, _, i => .ok (text, i)
  | fuel + 1, text, lineBreak, emptyLines, afterBlank, i =>
    if i.column = indent && !i.rest.isEmpty then do
      let blank := i.rest.head?.any isBlank
      let between :=
        if folded && lineBreak = ['\n'] && !afterBlank && !blank then
          if emptyLines.isEmpty then [' '] else []
        else lineBreak
      let (line, i) := i.takeWhile (!isBreak ·)
      let text := text ++ between ++ emptyLines ++ line
      let lineBreak := i.breakText
      let (emptyLines, _, i) ← blockBreaks (some indent) (i.left + 1) #[] 0 i.skipBreak
      blockLines folded indent chomping fuel text lineBreak emptyLines blank i
    else
      match chomping with
      | .strip => .ok (text, i)
      | .clip => .ok (text ++ lineBreak, i)
      | .keep => .ok (text ++ lineBreak ++ emptyLines, i)

/-- A block scalar inside a block that is indented by `outer`, or by -1 if there is none.
    Without a number in the header the first line that is not empty sets the indentation. -/
def blockScalar (folded : Bool) (outer : Int) (i : Input) : Read (List Char × Input) := do
  let (chomping, increment, i) ← blockHeader (i.skip 1)
  let i ← i.finishLine .badBlockHeader
  let given := increment.map fun n => (max outer 0).toNat + n
  let (emptyLines, widest, i) ← blockBreaks given (i.left + 1) #[] 0 i
  -- `widest` takes in the empty lines before the first one with text as well.
  let indent := given.getD (max widest (max (outer + 1) 1).toNat)
  let (text, i) ← blockLines folded indent chomping (i.left + 1) #[] [] emptyLines false i
  return (text.toList, i)

end Yaml

end DocTree
