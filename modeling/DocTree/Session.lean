import DocTree.View.Mutate
import DocTree.View.Resolve

/-!
# Sessions

Named handles on the views of a forest. A handle holds a view or nothing. Between two
operations exactly the views with a handle are held; those that an operation made and
nobody took a handle on are let go by `settle`.

## Main definitions

* `Session`: a forest and handles.
* `Session.get?`, `Session.assign`, `Session.drop`: the handles.
* `Session.settle`: letting go of views without a handle.
-/

namespace DocTree

/-- A forest with named handles on its views. -/
structure Session where
  forest : Forest
  handles : List (String × Option ViewId)

namespace Session

/-- The session with a handle on a root view of each document, named by `name`. -/
def start (documents : List Value) (name : Nat → String) : Session :=
  let (roots, forest) :=
    Forest.thread (fun f d => f.root d) (.ofDocuments documents) (List.range documents.length)
  ⟨forest, roots.mapIdx fun i n => (name i, some n)⟩

/-- There is a handle of this name, even one that holds nothing. -/
def has (s : Session) (name : String) : Bool :=
  s.handles.any (·.1 = name)

/-- The view that a handle holds. -/
def get? (s : Session) (name : String) : Option ViewId :=
  (s.handles.lookup name).join

/-- Removes a handle. -/
def drop (s : Session) (name : String) : Session :=
  { s with handles := s.handles.filter (·.1 ≠ name) }

/-- Makes a handle hold a view, or nothing. -/
def assign (s : Session) (name : String) (n : Option ViewId) : Session :=
  { s with handles := (name, n) :: (s.drop name).handles }

/-- The names of the handles on a view, in the order of code points. -/
def names (s : Session) (n : ViewId) : List String :=
  ((s.handles.filter (·.2 = some n)).map Prod.fst).mergeSort fun a b => !(b < a)

/-- Lets go of every view without a handle. -/
def settle (s : Session) : Session :=
  { s with forest := s.forest.settle (s.handles.filterMap Prod.snd) }

end Session

end DocTree
