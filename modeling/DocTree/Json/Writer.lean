import DocTree.Binary64.Shortest
import DocTree.Tree

/-!
# Writing JSON

The text of a tree, compact or indented by two spaces a level. Strings escape the
quote, the backslash and the control characters below the space, five of them by a
letter. Floats are written with the fewest digits that read back; a float that is
not finite has no JSON text and is written as `null`.

## Main definitions

* `Json.write`: the text of a tree.
* `Json.floats`: the layout of floats.
-/

namespace DocTree

namespace Json

/-- Floats have an exponent from `1e+16` up and from `1e-6` down. -/
def floats : Binary64.Layout where
  leastPositional := -5
  pastPositional := 16
  plus := ['+']
  nan := "null"
  infinite := "null"
  minusInfinite := "null"

/-- A character of a string. -/
def writeChar (c : Char) : List Char :=
  match c with
  | '"' => ['\\', '"']
  | '\\' => ['\\', '\\']
  | '\x08' => ['\\', 'b']
  | '\x0c' => ['\\', 'f']
  | '\n' => ['\\', 'n']
  | '\r' => ['\\', 'r']
  | '\t' => ['\\', 't']
  | c =>
    if c < ' ' then
      ['\\', 'u', '0', '0', Nat.digitChar (c.toNat / 16), Nat.digitChar (c.toNat % 16)]
    else [c]

def writeString (s : String) : List Char :=
  '"' :: s.toList.flatMap writeChar ++ ['"']

/-- The start of a line at a level of nesting, in indented text. -/
def newline (pretty : Bool) (level : Nat) : List Char :=
  if pretty then '\n' :: List.replicate (2 * level) ' ' else []

/-- Pieces between brackets: one a line in indented text, nothing between the brackets if
    there is no piece. -/
def bracketed (pretty : Bool) (level : Nat) (opening closing : Char)
    (pieces : List (List Char)) : List Char :=
  if pieces.isEmpty then [opening, closing]
  else
    opening :: newline pretty (level + 1)
      ++ (',' :: newline pretty (level + 1)).intercalate pieces
      ++ newline pretty level ++ [closing]

mutual

/-- The text of a tree at a level of nesting. -/
def writeAt (pretty : Bool) (level : Nat) : Tree → List Char
  | .null => "null".toList
  | .bool b => if b then "true".toList else "false".toList
  | .integer i => Decimal.ofInt i
  | .float x => (x.text floats).toList
  | .string s => writeString s
  | .list items => bracketed pretty level '[' ']' (writeItems pretty (level + 1) items)
  | .object members =>
    bracketed pretty level '\x7b' '\x7d' (writeMembers pretty (level + 1) members)

def writeItems (pretty : Bool) (level : Nat) : List Tree → List (List Char)
  | [] => []
  | t :: ts => writeAt pretty level t :: writeItems pretty level ts

def writeMembers (pretty : Bool) (level : Nat) : List (String × Tree) → List (List Char)
  | [] => []
  | (s, t) :: ms =>
    (writeString s ++ (if pretty then [':', ' '] else [':']) ++ writeAt pretty level t)
      :: writeMembers pretty level ms

end

/-- The text of a tree. -/
def write (pretty : Bool) (t : Tree) : String :=
  String.ofList (writeAt pretty 0 t)

end Json

end DocTree
