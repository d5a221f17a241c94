import DocTree.Path.Basic
import DocTree.Value

/-!
# Views

A view looks at one slot of a document, named by its location. Views own no data:
each read and write goes to the document, so all views of a slot see the same
value. What a container view does own is a *snapshot*: the keys its slot had when
the view was last loaded, and a cursor into them. Writing through one view leaves
the snapshots of all others as they are; they are *stale* until they are loaded
again.

A view knows its parent, and a container view the children it has handed out. The
children it remembers only as long as somebody needs them: a view is *alive* while
it, or a view below it, is held. A child that is asked for again while it is alive
is the same view as before, otherwise it is a new one. Views and documents are
numbered as they are made, and a parent is older than its children.

All of this is one value, a `Forest`, which every operation takes and returns. The
views that have been made since the forest was last settled are all alive: an
operation loses nothing it has found. Who holds a view from then on is settled
between operations.

## Main definitions

* `Snapshot`, `Face`, `View`: one view.
* `Forest`: documents and views.
* `Forest.slot?`, `Forest.value`: the data a view looks at.
* `Forest.lineage`, `Forest.isAlive`: ancestors, and who is still needed.
* `Forest.reload`, `Forest.revalidate`: bringing a snapshot up to date.
* `Forest.root`, `Forest.walk`: views of whole documents.
-/

namespace DocTree

abbrev DocumentId := Nat

abbrev ViewId := Nat

/-- The keys of a container when it was last loaded, and a cursor into them. -/
structure Snapshot where
  keys : List Key
  /-- The position of the last key. -/
  last : Option Nat
  /-- The position of the key visited last, unset before the first. -/
  cursor : Option Nat
deriving DecidableEq

/-- The snapshot of keys just loaded. -/
def Snapshot.ofKeys (keys : List Key) : Snapshot where
  keys := keys
  last := if keys.isEmpty then none else some (keys.length - 1)
  cursor := none

/-- What a view shows of its slot, fixed when the view is made: a single value, or a
    container with the children handed out so far. -/
inductive Face where
  | leaf
  | container (snapshot : Snapshot) (children : List (Key × ViewId))
deriving DecidableEq

/-- A view of one slot. -/
structure View where
  document : DocumentId
  /-- The keys that lead from the root of the document to the slot. -/
  location : List Key
  /-- The key under which the parent has this view; a root has none. -/
  key : Option Key
  parent : Option ViewId
  face : Face
deriving DecidableEq

namespace View

def isContainer (v : View) : Bool :=
  match v.face with
  | .container _ _ => true
  | .leaf => false

def snapshot? (v : View) : Option Snapshot :=
  match v.face with
  | .container s _ => some s
  | .leaf => none

/-- The view with another snapshot, if it has one. -/
def withSnapshot (v : View) (s : Snapshot) : View :=
  match v.face with
  | .container _ children => { v with face := .container s children }
  | .leaf => v

/-- The view with a child remembered under a key, instead of any before. Of the other children
    it keeps those that are alive. -/
def withChild (v : View) (key : Key) (child : ViewId) (alive : ViewId → Bool) : View :=
  match v.face with
  | .container s children =>
    let kept := children.filter fun e => e.1 ≠ key && alive e.2
    { v with face := .container s (kept ++ [(key, child)]) }
  | .leaf => v

end View

/-- Documents, the views of them, and which views are held. -/
structure Forest where
  documents : Array Value
  views : Array View
  held : List ViewId
  /-- The views from this number on have been made since the forest was last settled. -/
  settled : ViewId

namespace Forest

/-- Documents without any view. -/
def ofDocuments (documents : List Value) : Forest :=
  ⟨documents.toArray, #[], [], 0⟩

def view? (f : Forest) (n : ViewId) : Option View :=
  f.views[n]?

/-! ## Reading -/

/-- The slot at a location of a document. -/
def slotAt? (f : Forest) (d : DocumentId) (location : List Key) : Option Value :=
  f.documents[d]?.bind fun v => v.lookup location

/-- The slot a view looks at, if it still exists. -/
def slot? (f : Forest) (n : ViewId) : Option Value :=
  (f.view? n).bind fun v => f.slotAt? v.document v.location

/-- The value in the slot of a view, null if there is no slot any more. -/
def value (f : Forest) (n : ViewId) : Value :=
  (f.slot? n).getD .null

def typeName (f : Forest) (n : ViewId) : String :=
  (f.value n).typeName

def isContainer (f : Forest) (n : ViewId) : Bool :=
  ((f.view? n).map View.isContainer).getD false

def snapshot? (f : Forest) (n : ViewId) : Option Snapshot :=
  (f.view? n).bind View.snapshot?

/-- The keys of the snapshot; a leaf has none. -/
def keys (f : Forest) (n : ViewId) : List Key :=
  ((f.snapshot? n).map Snapshot.keys).getD []

def has (f : Forest) (n : ViewId) (key : Key) : Bool :=
  key ∈ f.keys n

/-- The keys the slot has now; none unless it holds a container. -/
def liveKeys (f : Forest) (n : ViewId) : List Key :=
  (f.value n).keys

/-- How many entries the slot of a container view has now. -/
def count (f : Forest) (n : ViewId) : Nat :=
  if f.isContainer n then (f.liveKeys n).length else 0

def cursor (f : Forest) (n : ViewId) : Option Nat :=
  (f.snapshot? n).bind Snapshot.cursor

def key (f : Forest) (n : ViewId) : Option Key :=
  (f.view? n).bind View.key

def parent (f : Forest) (n : ViewId) : Option ViewId :=
  (f.view? n).bind View.parent

/-- A view and its ancestors, at most `fuel` of them, from the view upwards. -/
def lineageWithin (f : Forest) : Nat → ViewId → List ViewId
  | 0, _ => []
  | fuel + 1, n =>
    n :: match f.parent n with
      | some p => f.lineageWithin fuel p
      | none => []

/-- A view and its ancestors, from the view upwards. There are no more than there are
    numbers up to that of the view. -/
def lineage (f : Forest) (n : ViewId) : List ViewId :=
  f.lineageWithin (n + 1) n

/-- The texts of the keys that lead to a view, joined with a separator. -/
def absolutePath (f : Forest) (n : ViewId) (separator : String) : String :=
  Path.join (((f.lineage n).filterMap f.key).reverse.map Key.text) separator

/-- The view, or one below it, is held, or it is too new for that to be settled. -/
def isAlive (f : Forest) (n : ViewId) : Bool :=
  f.settled ≤ n || f.held.any fun h => n ∈ f.lineage h

/-- Lets go of all views but those held from now on and their ancestors. -/
def settle (f : Forest) (held : List ViewId) : Forest :=
  { f with held := held, settled := f.views.size }

/-! ## Loading -/

/-- Changes one view. -/
def update (f : Forest) (n : ViewId) (change : View → View) : Forest :=
  { f with views := f.views.modify n change }

/-- Takes a new snapshot of a container view; its cursor is unset then. -/
def reload (f : Forest) (n : ViewId) : Forest :=
  f.update n (·.withSnapshot (Snapshot.ofKeys (f.liveKeys n)))

/-- Reloads a container view whose snapshot no longer has the keys of its slot. -/
def revalidate (f : Forest) (n : ViewId) : Forest :=
  if f.isContainer n ∧ f.keys n ≠ f.liveKeys n then f.reload n else f

/-- Makes a view of a slot that holds `slot`. -/
def makeView (f : Forest) (d : DocumentId) (location : List Key) (key : Option Key)
    (parent : Option ViewId) (slot : Value) : ViewId × Forest :=
  let face : Face :=
    if slot.isContainer then .container (Snapshot.ofKeys slot.keys) [] else .leaf
  (f.views.size,
    { f with views := f.views.push ⟨d, location, key, parent, face⟩ })

/-- Makes a view of a whole document. Every call makes a new one. -/
def root (f : Forest) (d : DocumentId) : ViewId × Forest :=
  f.makeView d [] none none ((f.slotAt? d []).getD .null)

/-- Makes a document of a value, and a view of all of it. -/
def walk (f : Forest) (v : Value) : ViewId × Forest :=
  { f with documents := f.documents.push v }.root f.documents.size

/-- Runs an operation on each element in turn. -/
def thread {α β : Type} (op : Forest → α → β × Forest) :
    Forest → List α → List β × Forest
  | f, [] => ([], f)
  | f, a :: as =>
    let (b, f) := op f a
    let (bs, f) := thread op f as
    (b :: bs, f)

end Forest

end DocTree
