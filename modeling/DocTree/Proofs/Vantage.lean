import Mathlib
import DocTree.View.Resolve

/-!
# What Can Be Seen from a View

A query walks through views, makes some, brings others up to date and makes documents.
What it finds depends on much less: on the value in the slot where it starts, and on the
keys and the kind that the view there has, which may be stale. These three make a
`Vantage`, and this module says what queries find from one, as plain functions of it.

From a vantage, a place is known by the keys that lead to it. Only the place of no keys,
the vantage itself, can be stale. At every other place one sees what is in the slot now.

A wildcard moves on to a vantage of its own, the flattened level. So the frontier of a
query with wildcards is a vantage together with a place.

## Main definitions

* `Vantage`: a value, and the keys and the kind it is seen with.
* `Vantage.below`: the vantage at a place.
* `Vantage.child?`, `Vantage.select?`, `Vantage.get?`, `Vantage.walk?`: the places that
  keys, selectors, segments and paths lead to.
* `Vantage.flatten`, `Vantage.choices`, `Vantage.candidates`: what wildcards stand for.
* `Vantage.survivors`: the candidates that lead to a place, with the values there.

## Theorems

* `value_below`: the value at a place is the one in the slot there.
* `child?_eq_some_iff`: when there is a child, and where.
-/

namespace DocTree

/-- A value as it is seen from a view of it. -/
structure Vantage where
  value : Value
  /-- The keys of the snapshot. -/
  keys : List Key
  isContainer : Bool

namespace Vantage

/-- A value seen as it is. -/
def ofValue (v : Value) : Vantage :=
  ⟨v, v.keys, v.isContainer⟩

/-- What is seen at a place. -/
def below (t : Vantage) (place : List Key) : Vantage :=
  if place = [] then t else ofValue ((t.value.lookup place).getD .null)

variable (t : Vantage) (place : List Key)

/-! ## Paths without wildcards -/

/-- The place of the child under a key, if the key is seen and its slot exists. -/
def child? (key : Key) : Option (List Key) :=
  if key ∈ (t.below place).keys ∧ (t.value.lookup (place ++ [key])).isSome then
    some (place ++ [key])
  else none

/-- The place of the child at a position of the keys, counting from 0. -/
def childAt? (i : Nat) : Option (List Key) :=
  (t.below place).keys[i]?.bind fun key => t.child? place key

/-- The place that a selector names. -/
def select? (s : Selector) : Option (List Key) :=
  if (t.below place).isContainer then
    match s with
    | .parent => some place.dropLast
    | .nthChild i => if 1 ≤ i.toInt then t.childAt? place (i.toInt - 1).toNat else none
    | .first => t.childAt? place 0
    | .last => t.childAt? place ((t.below place).keys.length - 1)
  else none

/-- The place that a segment leads to. -/
def get? (raw : String) : Option (List Key) :=
  (t.child? place (Segment.parse raw).key).bind fun c =>
    match (Segment.parse raw).selector with
    | some s => t.select? c s
    | none => some c

/-- The place that segments lead to, one after the other. -/
def walk? (place : List Key) : List String → Option (List Key)
  | [] => none
  | [raw] => t.get? place raw
  | raw :: rest =>
    (t.get? place raw).bind fun c => if (t.below c).isContainer then walk? c rest else none

/-! ## Paths with wildcards -/

/-- The places of all children. -/
def children : List (List Key) :=
  (t.below place).keys.filterMap fun key => t.child? place key

/-- All children flattened into one container. -/
def flatten : Entries Value :=
  ((t.children place).map fun c => (t.below c).value).foldl Forest.flattenInto []

/-- What each segment may stand for, along a frontier. -/
def choices (frontier : Option (Vantage × List Key)) : List String → List (List String)
  | [] => []
  | raw :: rest =>
    if raw = Path.wildcard then
      match frontier.filter fun e => (e.1.below e.2).isContainer with
      | some (t, place) =>
        (t.below place).keys.map Key.text ::
          choices (some (ofValue (.container (t.flatten place)), [])) rest
      | none => [] :: choices frontier rest
    else [raw] :: choices (frontier.bind fun e => (e.1.get? e.2 raw).map fun c => (e.1, c)) rest

/-- The concrete paths that a path with wildcards may stand for. -/
def candidates (path : Path) : List String :=
  (Forest.combinations (choices (some (t, [])) path.segments)).map fun segments =>
    Path.join segments path.separator

/-- The place that a candidate leads to, if the candidate has as many segments as the path. -/
def attempt? (path : Path) (candidate : String) : Option (List Key) :=
  if (Path.parse candidate path.separator).segments.length = path.length then
    t.walk? [] (Path.parse candidate path.separator).segments
  else none

/-- The candidates that lead to a place, with the values there. -/
def survivors (path : Path) : List (String × Value) :=
  (t.candidates path).filterMap fun candidate =>
    (t.attempt? path candidate).map fun place => (candidate, (t.below place).value)

/-! ## Places -/

/-- The value at a place is the one in the slot there, or null if there is none. -/
theorem value_below : (t.below place).value = (t.value.lookup place).getD .null := by
  rw [below]
  split
  · rename_i hnil
    rw [hnil]
    rfl
  · rfl

/-- There is a child if its key is seen, which may be stale, and its slot is there, which is not. -/
theorem child?_eq_some_iff (key : Key) (q : List Key) :
    t.child? place key = some q ↔
      key ∈ (t.below place).keys ∧ (t.value.lookup (place ++ [key])).isSome ∧
        q = place ++ [key] := by
  rw [child?]
  split
  · rename_i h
    rw [Option.some.injEq]
    exact ⟨fun hq => ⟨h.1, h.2, hq.symm⟩, fun hq => hq.2.2.symm⟩
  · rename_i h
    exact ⟨fun hq => absurd hq (by simp), fun hq => absurd ⟨hq.1, hq.2.1⟩ h⟩

end Vantage

end DocTree
