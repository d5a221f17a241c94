/-!
# Paths

A path is a text split on a separator. Splitting takes the separators from left
to right and never overlapping; consecutive, leading and trailing ones make empty
segments, and the empty separator splits nothing. Joining the segments with the
separator gives the text back.

A segment that is exactly `*` is a wildcard. What any other segment means is the
business of `Segment`.

## Main definitions

* `Path`: segments and the separator they were split on.
* `Path.parse`: splitting a text.
* `Path.join`: segments joined with a separator.
-/

namespace DocTree

/-- A text split on its separator. -/
structure Path where
  separator : String
  segments : List String
deriving DecidableEq

namespace Path

/-- The separator used when none is given. -/
def defaultSeparator : String := "/"

/-- The segment that stands for every key. -/
def wildcard : String := "*"

/-- Splits characters on a non-empty separator, after passing over the first `skip`
    characters, which belong to a separator already found. -/
def splitChars (separator : List Char) : Nat → List Char → List (List Char)
  | _, [] => [[]]
  | skip + 1, _ :: cs => splitChars separator skip cs
  | 0, c :: cs =>
    if separator.isPrefixOf (c :: cs) then
      [] :: splitChars separator (separator.length - 1) cs
    else
      match splitChars separator 0 cs with
      | [] => [[c]]
      | s :: ss => (c :: s) :: ss

/-- Splits a path on a separator; the empty separator keeps it whole. -/
def parse (text separator : String) : Path where
  separator := separator
  segments :=
    if separator.isEmpty then [text]
    else (splitChars separator.toList 0 text.toList).map String.ofList

def length (p : Path) : Nat :=
  p.segments.length

def isEmpty (p : Path) : Bool :=
  p.segments.isEmpty

/-- Some segment is the wildcard. -/
def isWildcard (p : Path) : Bool :=
  p.segments.any (· = wildcard)

/-- The last segment and those before it. -/
def splitLast? (p : Path) : Option (String × List String) :=
  p.segments.getLast?.map fun s => (s, p.segments.dropLast)

/-- Segments joined with a separator. -/
def join (segments : List String) (separator : String) : String :=
  separator.intercalate segments

end Path

end DocTree
