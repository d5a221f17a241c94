import DocTree.View.Basic

/-!
# Children of a View

Fetching a child goes by the snapshot and then by the data: the key has to be in
the snapshot, and the slot has to exist now. If the view has a child for the key
that is alive and of the right kind, it is that child, brought up to date;
otherwise a new view is made and remembered.

## Main definitions

* `Forest.child`: the child under a key.
* `Forest.items`: all children, in the order of the snapshot.
* `Forest.primitive`: the value seen through the snapshots.
-/

namespace DocTree

namespace Forest

/-- The remembered child under a key, if it is alive and of the wanted kind. -/
def cached? (f : Forest) (children : List (Key × ViewId)) (key : Key) (container : Bool) :
    Option ViewId :=
  (Entries.get? children key).filter fun c => f.isAlive c && f.isContainer c == container

/-- The child under a key. -/
def child (f : Forest) (n : ViewId) (key : Key) : Option ViewId × Forest :=
  match f.view? n with
  | some ⟨d, location, _, _, .container snapshot children⟩ =>
    if key ∈ snapshot.keys then
      match f.slotAt? d (location ++ [key]) with
      | some slot =>
        match f.cached? children key slot.isContainer with
        | some c => (some c, f.revalidate c)
        | none =>
          let (c, g) := f.makeView d (location ++ [key]) (some key) (some n) slot
          (some c, g.update n (·.withChild key c f.isAlive))
      | none => (none, f)
    else (none, f)
  | _ => (none, f)

/-- The children of a view, in the order of the snapshot, less those whose slot is gone. -/
def items (f : Forest) (n : ViewId) : List (Key × ViewId) × Forest :=
  let (found, f) := thread (fun f key =>
    let (c, f) := f.child n key
    (c.map (key, ·), f)) f (f.keys n)
  (found.filterMap id, f)

/-- The value seen through the snapshots, down to a depth. -/
def primitiveWithin : Nat → Forest → ViewId → Value × Forest
  | 0, f, n => (f.value n, f)
  | depth + 1, f, n =>
    if f.isContainer n then
      let (children, f) := f.items n
      let (pairs, f) := thread (fun f e =>
        let (v, f) := primitiveWithin depth f e.2
        ((e.1, v), f)) f children
      (.container (Entries.collect pairs), f)
    else (f.value n, f)

/-- The value rebuilt from the views below a view: a container has the entries its
    snapshot shows, in that order. No view is deeper than the value in its slot. -/
def primitive (f : Forest) (n : ViewId) : Value × Forest :=
  primitiveWithin ((f.value n).depth + 1) f n

end Forest

end DocTree
