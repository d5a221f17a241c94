import DocTree.Value

/-!
# Merging

Two values merge into one container. Index keys never collide: the values under
them are renumbered in order, left before right. A name on one side keeps its
value; a name on both sides holds the merge of its two values. A scalar merges as
the sequence of itself, so two scalars under one name become a sequence of both.

The left side is renumbered once and then absorbs the entries of the right side
one by one, so the recursion is on the right side alone.

## Main definitions

* `Value.absorb`: adds the entries of the right side to a renumbered left side.
* `Value.mergeEntries`: the merge of two containers.
* `Value.merge`: the merge of two values.
-/

namespace DocTree

namespace Value

mutual

/-- The merge of the value already under a name with one that arrives there. -/
def combine (old : Value) : Value → Value
  | container c => container (absorb (Entries.renumber old.toEntries) c)
  | v => container (Entries.push (Entries.renumber old.toEntries) v)

/-- Adds entries to a container: values under index keys are pushed, new names are
    added at the end, and a name that is there already combines the two values. -/
def absorb (merged : Entries Value) : List (Key × Value) → Entries Value
  | [] => merged
  | (.index _, v) :: c => absorb (Entries.push merged v) c
  | (.name s, v) :: c =>
    match Entries.get? merged (.name s) with
    | some old => absorb (Entries.overwrite merged (.name s) (combine old v)) c
    | none => absorb (merged ++ [(.name s, v)]) c

end

/-- The merge of two containers. -/
def mergeEntries (left right : Entries Value) : Entries Value :=
  absorb (Entries.renumber left) right

/-- The merge of two values, always a container. -/
def merge (left right : Value) : Value :=
  container (mergeEntries left.toEntries right.toEntries)

end Value

end DocTree
