import DocTree.Entries
import DocTree.Binary64

/-!
# Values

The data of a document: scalars, and containers of keyed entries. One kind of
container serves as array and as object.

A *location* is a list of keys leading down from a value. `lookup` reads the
slot there, `replace?` writes it, and `setPath` writes below a container,
making the containers on the way that are missing.

## Main definitions

* `Value`: a scalar or a container.
* `Value.lookup`, `Value.replace?`: the slot at a location.
* `Value.toEntries`: the entries of a container, or a scalar as a sequence of one.
* `Value.equal`: equality as a program sees it, with numeric equality of floats.
* `Entries.setPath`: a deep write.
* `Value.Distinct`: every container holds distinct keys.
-/

namespace DocTree

/-- A scalar or a container. -/
inductive Value where
  | null
  | bool (b : Bool)
  | int (i : Int64)
  | float (x : Binary64)
  | string (s : String)
  | container (entries : List (Key × Value))
deriving Inhabited

namespace Value

def isNull : Value → Bool
  | null => true
  | _ => false

def isContainer : Value → Bool
  | container _ => true
  | _ => false

/-- The entries of a container. -/
def entries? : Value → Option (Entries Value)
  | container c => some c
  | _ => none

def int? : Value → Option Int64
  | int i => some i
  | _ => none

def string? : Value → Option String
  | string s => some s
  | _ => none

/-- The name of the kind of a value. -/
def typeName : Value → String
  | null => "null"
  | bool _ => "bool"
  | int _ => "int"
  | float _ => "float"
  | string _ => "string"
  | container _ => "container"

/-- The sequence of these values. -/
def sequence (vs : List Value) : Value :=
  container (Entries.ofValues vs)

/-- The keys of a container; a scalar has none. -/
def keys (v : Value) : List Key :=
  (v.entries?.map Entries.keys).getD []

/-- The entries of a container; a scalar counts as the sequence of itself. -/
def toEntries : Value → Entries Value
  | container c => c
  | v => Entries.ofValues [v]

/-- The value under a key of a container. -/
def child? (v : Value) (key : Key) : Option Value :=
  v.entries?.bind fun c => Entries.get? c key

/-- The value at a location. -/
def lookup (v : Value) : List Key → Option Value
  | [] => some v
  | key :: location => (v.child? key).bind fun w => w.lookup location

/-- Writes the slot at a location, if it exists. -/
def replace? (v : Value) : List Key → Value → Option Value
  | [], w => some w
  | key :: location, w =>
    match v with
    | container c =>
      (Entries.get? c key).bind fun u =>
        (u.replace? location w).map fun u' => container (Entries.overwrite c key u')
    | _ => none

mutual

/-- The number of nested containers on the deepest way down. -/
def depth : Value → Nat
  | container c => entriesDepth c + 1
  | _ => 0

/-- The greatest depth among the values of entries. -/
def entriesDepth : List (Key × Value) → Nat
  | [] => 0
  | (_, v) :: c => max v.depth (entriesDepth c)

end

mutual

/-- Equality as a program sees it: floats compare as numbers, an integer never
    equals a float, and containers are equal entry by entry, in order. -/
def equal : Value → Value → Bool
  | null, null => true
  | bool a, bool b => a = b
  | int i, int j => i = j
  | float x, float y => x.equal y
  | string s, string t => s = t
  | container c, container d => entriesEqual c d
  | _, _ => false

/-- The same keys with equal values, in the same order. -/
def entriesEqual : List (Key × Value) → List (Key × Value) → Bool
  | [], [] => true
  | (k, v) :: c, (l, w) :: d => k = l && equal v w && entriesEqual c d
  | _, _ => false

end

mutual

/-- Every container, at every depth, holds distinct keys. -/
def Distinct : Value → Prop
  | container c => Entries.Distinct c ∧ EntriesDistinct c
  | _ => True

/-- Every value of the entries holds distinct keys at every depth. -/
def EntriesDistinct : List (Key × Value) → Prop
  | [] => True
  | (_, v) :: c => v.Distinct ∧ EntriesDistinct c

end

end Value

namespace Entries

/-- Writes a value below a container. The last key of the location is written as
    by `insert`; a key before it that is missing or holds a scalar gets an empty
    container first. The empty location is no place below the container. -/
def setPath (c : Entries Value) : List Key → Value → Entries Value
  | [], _ => c
  | [key], w => insert c key w
  | key :: location, w =>
    let inner := ((get? c key).bind Value.entries?).getD []
    insert c key (.container (setPath inner location w))

end Entries

end DocTree
