import DocTree.Merge
import DocTree.View.Basic

/-!
# Writing Through a View

Every mutation works on the container that the slot of the view holds now, writes the
result back into the document, and loads the view again. A leaf view, or one whose
slot no longer holds a container, refuses, and then nothing changes at all. Stale
snapshots play no part: what is written depends on the location of the view and on
the data.

## Main definitions

* `Forest.mutate`: a change of the container in a slot.
* `Forest.set`, `Forest.append`, `Forest.prepend`, `Forest.merge`: writing values.
* `Forest.shift`, `Forest.pop`: taking values out.
-/

namespace DocTree

namespace Forest

/-- The container that a container view can write to. -/
def container? (f : Forest) (n : ViewId) : Option (Entries Value) :=
  if f.isContainer n then (f.slot? n).bind Value.entries? else none

/-- Writes a value into the slot of a view, if it exists. -/
def write (f : Forest) (n : ViewId) (w : Value) : Forest :=
  match f.view? n with
  | some v =>
    { f with
      documents := f.documents.modify v.document fun d => (d.replace? v.location w).getD d }
  | none => f

/-- Changes the container in the slot of a view and loads the view again. -/
def mutate {α : Type} (f : Forest) (n : ViewId) (op : Entries Value → α × Entries Value) :
    Option α × Forest :=
  match f.container? n with
  | some c =>
    let (a, c) := op c
    (some a, (f.write n (.container c)).reload n)
  | none => (none, f)

/-- Writes a value at a path below a view. Every segment is a plain key here. A path with
    an empty segment is refused. -/
def set (f : Forest) (n : ViewId) (text : String) (w : Value) (separator : String) :
    Option Unit × Forest :=
  let segments := (Path.parse text separator).segments
  if segments.any String.isEmpty then (none, f)
  else f.mutate n fun c => ((), c.setPath (segments.map Key.parse) w)

/-- Adds values at the end, each under the next index. -/
def append (f : Forest) (n : ViewId) (vs : List Value) : Option Unit × Forest :=
  f.mutate n fun c => ((), vs.foldl Entries.push c)

/-- Puts values in front and renumbers the index keys. -/
def prepend (f : Forest) (n : ViewId) (vs : List Value) : Option Unit × Forest :=
  f.mutate n fun c => ((), c.prepend vs)

/-- Removes the first entry and renumbers the index keys of the others. There is no value
    if there was no entry. -/
def shift (f : Forest) (n : ViewId) : Option Value × Forest :=
  let (v, f) := f.mutate n fun c => (c.head?.map Prod.snd, Entries.renumber c.tail)
  (v.join, f)

/-- Removes the last entry. There is no value if there was no entry. -/
def pop (f : Forest) (n : ViewId) : Option Value × Forest :=
  let (v, f) := f.mutate n fun c => (c.getLast?.map Prod.snd, c.dropLast)
  (v.join, f)

/-- Merges a value into the container. -/
def merge (f : Forest) (n : ViewId) (w : Value) : Option Unit × Forest :=
  f.mutate n fun c => ((), Value.mergeEntries c w.toEntries)

end Forest

end DocTree
