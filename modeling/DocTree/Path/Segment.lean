import DocTree.Blank
import DocTree.Key

/-!
# Segments

A path segment is a key, optionally followed by a selector clause such as
`roles::nthChild(2)`. The clause is read from the end of the segment: an argument
in parentheses that holds no parenthesis, before it a name of ASCII letters, before
that two colons, and before those a key that is not empty and has no line feed.
Reading backwards there is only one way to do it, so a key may itself contain
`::`, parentheses or a whole clause.

A clause whose name or argument means nothing is no clause: the whole segment is
then the key.

## Main definitions

* `Selector`: what a clause selects, relative to a container.
* `Selector.ofClause?`: the selector of a name and an argument.
* `Segment`: a key with an optional selector.
* `Segment.parse`: the segment of a text.
-/

namespace DocTree

/-- A position relative to a container. -/
inductive Selector where
  /-- The container's parent. -/
  | parent
  /-- The child at this position, counting from 1. -/
  | nthChild (n : Int64)
  | first
  | last
deriving DecidableEq

namespace Selector

/-- The selector a clause denotes. The name is read without regard to ASCII case.
    Only `nthChild` looks at its argument, which must be an integer, perhaps
    signed and between blanks. -/
def ofClause? (name argument : String) : Option Selector :=
  match String.ofList (name.toList.map Char.toLower) with
  | "parent" => some parent
  | "first" => some first
  | "last" => some last
  | "nthchild" =>
    ((Decimal.signed? (Blank.trim argument.toList)).bind Decimal.int64?).map nthChild
  | _ => none

/-- The clause that denotes a selector, without the colons. -/
def text : Selector → String
  | parent => "parent()"
  | nthChild n => "nthChild(" ++ String.ofList (Decimal.ofInt n.toInt) ++ ")"
  | first => "first()"
  | last => "last()"

end Selector

/-- A key to look up and a selector to apply to what is found. -/
structure Segment where
  /-- The text of the key. -/
  rawKey : String
  /-- The selector and the argument as written. -/
  clause : Option (Selector × String)
deriving DecidableEq

namespace Segment

def key (s : Segment) : Key :=
  Key.parse s.rawKey

def selector (s : Segment) : Option Selector :=
  s.clause.map Prod.fst

/-- The text between the parentheses of the clause. -/
def argument (s : Segment) : Option String :=
  s.clause.map Prod.snd

def isParenthesis (c : Char) : Bool :=
  c = '(' || c = ')'

/-- Splits a text `key::name(argument)` into its three parts. -/
def clauseParts? (cs : List Char) : Option (List Char × List Char × List Char) :=
  match cs.reverse with
  | ')' :: r =>
    match r.dropWhile (!isParenthesis ·) with
    | '(' :: r' =>
      match r'.dropWhile Char.isAlpha with
      | ':' :: ':' :: key =>
        let name := r'.takeWhile Char.isAlpha
        if name ≠ [] ∧ key ≠ [] ∧ '\n' ∉ key then
          some (key.reverse, name.reverse, (r.takeWhile (!isParenthesis ·)).reverse)
        else none
      | _ => none
    | _ => none
  | _ => none

/-- A segment that is a plain key. -/
def literal (raw : String) : Segment :=
  ⟨raw, none⟩

/-- The segment a text denotes. Every text denotes one. -/
def parse (raw : String) : Segment :=
  match clauseParts? raw.toList with
  | some (key, name, argument) =>
    match Selector.ofClause? (String.ofList name) (String.ofList argument) with
    | some selector => ⟨String.ofList key, some (selector, String.ofList argument)⟩
    | none => literal raw
  | none => literal raw

end Segment

end DocTree
