import DocTree.Path.Segment
import DocTree.View.Child

/-!
# Cursors and Positions

A container view is walked with a cursor, or asked for the child at a position. Both
go by the snapshot. The cursor starts before the first key, stops at the last one,
and on the way back stops at the first. A step that moves the cursor to a key that
is gone finds no child there, but has moved.

## Main definitions

* `Forest.next`, `Forest.prev`, `Forest.rewind`: the cursor.
* `Forest.drain`, `Forest.undrain`: walking until nothing is found.
* `Forest.first`, `Forest.last`, `Forest.nthChild`: positions.
* `Forest.select`: the position or relative a selector names.
-/

namespace DocTree

namespace Snapshot

/-- The position after the cursor. -/
def following? (s : Snapshot) : Option Nat :=
  s.last.bind fun last =>
    match s.cursor with
    | none => some 0
    | some i => if last ≤ i then none else some (i + 1)

/-- The position before the cursor. -/
def preceding? (s : Snapshot) : Option Nat :=
  match s.cursor with
  | none => none
  | some 0 => none
  | some (i + 1) => some i

end Snapshot

namespace Forest

/-- The child at a position of the snapshot, counting from 0. -/
def childAt (f : Forest) (n : ViewId) (i : Nat) : Option ViewId × Forest :=
  match (f.keys n)[i]? with
  | some key => f.child n key
  | none => (none, f)

/-- Puts the cursor of a view somewhere. -/
def setCursor (f : Forest) (n : ViewId) (cursor : Option Nat) : Forest :=
  match f.snapshot? n with
  | some s => f.update n (·.withSnapshot { s with cursor := cursor })
  | none => f

/-- Moves the cursor to a position, if there is one, and fetches the child there. -/
def moveTo (f : Forest) (n : ViewId) : Option Nat → Option ViewId × Forest
  | some i => (f.setCursor n (some i)).childAt n i
  | none => (none, f)

/-- Moves the cursor forward and fetches the child there. -/
def next (f : Forest) (n : ViewId) : Option ViewId × Forest :=
  f.moveTo n ((f.snapshot? n).bind Snapshot.following?)

/-- Moves the cursor back and fetches the child there. -/
def prev (f : Forest) (n : ViewId) : Option ViewId × Forest :=
  f.moveTo n ((f.snapshot? n).bind Snapshot.preceding?)

/-- Puts the cursor before the first key. -/
def rewind (f : Forest) (n : ViewId) : Forest :=
  f.setCursor n none

/-- The key and the value of a view. -/
def entry (f : Forest) (n : ViewId) : Option Key × Value :=
  (f.key n, f.value n)

/-- Repeats a step until it finds nothing, and looks at each view found. -/
def repeatStep {α : Type} (step : Forest → Option ViewId × Forest)
    (look : Forest → ViewId → α) : Nat → Forest → List α × Forest
  | 0, f => ([], f)
  | fuel + 1, f =>
    match step f with
    | (some c, f) =>
      let (rest, g) := repeatStep step look fuel f
      (look f c :: rest, g)
    | (none, f) => ([], f)

/-- Moves forward until there is nothing, and lists the keys and values found on the way.
    The cursor cannot move more often than there are keys. -/
def drain (f : Forest) (n : ViewId) : List (Option Key × Value) × Forest :=
  repeatStep (·.next n) entry ((f.keys n).length + 1) f

/-- Moves back until there is nothing, and lists the keys and values found on the way. -/
def undrain (f : Forest) (n : ViewId) : List (Option Key × Value) × Forest :=
  repeatStep (·.prev n) entry ((f.keys n).length + 1) f

/-- The first child. The cursor stays where it is. -/
def first (f : Forest) (n : ViewId) : Option ViewId × Forest :=
  f.childAt n 0

/-- The last child. The cursor stays where it is. -/
def last (f : Forest) (n : ViewId) : Option ViewId × Forest :=
  match (f.snapshot? n).bind Snapshot.last with
  | some i => f.childAt n i
  | none => (none, f)

/-- The child at a position, counting from 1. -/
def nthChild (f : Forest) (n : ViewId) (position : Int64) : Option ViewId × Forest :=
  if 1 ≤ position.toInt then f.childAt n (position.toInt - 1).toNat else (none, f)

/-- The child at a position computed from arguments. -/
def nthChildWith (f : Forest) (n : ViewId) (position : List Value → Int64)
    (arguments : List Value) : Option ViewId × Forest :=
  f.nthChild n (position arguments)

/-- What a selector names, relative to a container view; nothing for a leaf. -/
def select (f : Forest) (n : ViewId) (s : Selector) : Option ViewId × Forest :=
  if f.isContainer n then
    match s with
    | .parent => (f.parent n, f)
    | .nthChild i => f.nthChild n i
    | .first => f.first n
    | .last => f.last n
  else (none, f)

end Forest

end DocTree
