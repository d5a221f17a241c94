import DocTree.Value

/-!
# Trees

What a text in one of the document formats says, before keys are interpreted.

A `Tree` has members named by text, which is all that JSON can say and all that
this library ever writes. A `Datum` is the richer content of a text that is read:
any datum may stand as a key, keys may repeat, and a datum may carry a tag.

Values are encoded as trees and decoded from data. A container whose keys are
0, 1, 2, … in order is written as a list, any other as an object with its keys as
text; so the empty container is a list. Decoding reads textual keys with
`Key.parse` and lets the last of repeated keys win at the place of the first. It
fails on a tagged datum and on a key that is not a string, an integer or a boolean.

`Value.ofTree` is a second, direct conversion for trees that were normalised first:
members sorted by name, only the last of each name kept.

## Main definitions

* `Tree`, `Datum`: the two kinds of content.
* `Tree.ofValue`: encoding.
* `Value.ofDatum?`: decoding.
* `Tree.normalise`, `Value.ofTree`: decoding by way of a normal form.
-/

namespace DocTree

/-- Content with members named by text. -/
inductive Tree where
  | null
  | bool (b : Bool)
  | integer (i : Int)
  | float (x : Binary64)
  | string (s : String)
  | list (items : List Tree)
  | object (members : List (String × Tree))
deriving Inhabited

/-- Content in which anything may be a key or carry a tag. -/
inductive Datum where
  | null
  | bool (b : Bool)
  | integer (i : Int)
  | float (x : Binary64)
  | string (s : String)
  | list (items : List Datum)
  | map (pairs : List (Datum × Datum))
  | tagged (tag : String) (content : Datum)
deriving Inhabited

namespace Tree

mutual

/-- The tree that a value is written as. -/
def ofValue : Value → Tree
  | .null => null
  | .bool b => bool b
  | .int i => integer i.toInt
  | .float x => float x
  | .string s => string s
  | .container c => if Entries.isSequence c then list (ofValues c) else object (ofEntries c)

/-- The values of entries as trees. -/
def ofValues : List (Key × Value) → List Tree
  | [] => []
  | (_, v) :: c => ofValue v :: ofValues c

/-- Entries as members, named by the text of their keys. -/
def ofEntries : List (Key × Value) → List (String × Tree)
  | [] => []
  | (k, v) :: c => (k.text, ofValue v) :: ofEntries c

end

mutual

/-- A tree as a datum; members get strings as keys. -/
def toDatum : Tree → Datum
  | null => .null
  | bool b => .bool b
  | integer i => .integer i
  | float x => .float x
  | string s => .string s
  | list items => .list (toData items)
  | object members => .map (toPairs members)

def toData : List Tree → List Datum
  | [] => []
  | t :: ts => t.toDatum :: toData ts

def toPairs : List (String × Tree) → List (Datum × Datum)
  | [] => []
  | (s, t) :: ms => (.string s, t.toDatum) :: toPairs ms

end

/-- Puts a member into members sorted by name, over one of the same name. -/
def insertMember (name : String) (t : Tree) : List (String × Tree) → List (String × Tree)
  | [] => [(name, t)]
  | (s, u) :: ms =>
    if name = s then (name, t) :: ms
    else if name < s then (name, t) :: (s, u) :: ms
    else (s, u) :: insertMember name t ms

mutual

/-- The tree with the members of every object sorted by name, in the order of code
    points, and only the last member of each name kept. -/
def normalise : Tree → Tree
  | list items => list (normaliseItems items)
  | object members => object (normaliseMembers [] members)
  | t => t

def normaliseItems : List Tree → List Tree
  | [] => []
  | t :: ts => t.normalise :: normaliseItems ts

/-- Normalises members and puts them into members that are sorted already. -/
def normaliseMembers (sorted : List (String × Tree)) :
    List (String × Tree) → List (String × Tree)
  | [] => sorted
  | (s, t) :: ms => normaliseMembers (insertMember s t.normalise sorted) ms

end

end Tree

/-- The key a datum denotes. An integer too large for an index is the name of its
    digits, and a boolean is the name of its text. -/
def Key.ofDatum? : Datum → Option Key
  | .string s => some (parse s)
  | .integer i =>
    match Decimal.int64? i with
    | some j => some (index j)
    | none => some (name (String.ofList (Decimal.ofInt i)))
  | .bool b => some (name (if b then "true" else "false"))
  | _ => none

namespace Value

/-- An integer as a value: as a float if it does not fit into 64 bits. -/
def ofInteger (i : Int) : Value :=
  match Decimal.int64? i with
  | some j => int j
  | none => float (Binary64.ofInt i)

mutual

/-- The value of a datum, if the datum fits the model. -/
def ofDatum? : Datum → Option Value
  | .null => some null
  | .bool b => some (bool b)
  | .integer i => some (ofInteger i)
  | .float x => some (float x)
  | .string s => some (string s)
  | .list items => (ofData? items).map sequence
  | .map pairs => (ofPairs? pairs).map fun ps => container (Entries.collect ps)
  | .tagged _ _ => none

def ofData? : List Datum → Option (List Value)
  | [] => some []
  | d :: ds => (ofDatum? d).bind fun v => (ofData? ds).map (v :: ·)

def ofPairs? : List (Datum × Datum) → Option (List (Key × Value))
  | [] => some []
  | (k, d) :: ps =>
    (Key.ofDatum? k).bind fun key =>
      (ofDatum? d).bind fun v => (ofPairs? ps).map ((key, v) :: ·)

end

mutual

/-- The value of a tree. -/
def ofTree : Tree → Value
  | .null => null
  | .bool b => bool b
  | .integer i => ofInteger i
  | .float x => float x
  | .string s => string s
  | .list items => sequence (ofTrees items)
  | .object members => container (Entries.collect (ofMembers members))

def ofTrees : List Tree → List Value
  | [] => []
  | t :: ts => ofTree t :: ofTrees ts

def ofMembers : List (String × Tree) → List (Key × Value)
  | [] => []
  | (s, t) :: ms => (Key.parse s, ofTree t) :: ofMembers ms

end

mutual

/-- Every tree has a value: its keys are strings and nothing in it is tagged. -/
theorem ofDatum?_toDatum : ∀ t : Tree, ofDatum? t.toDatum = some (ofTree t)
  | .null | .bool _ | .integer _ | .float _ | .string _ => rfl
  | .list items => by simp [Tree.toDatum, ofDatum?, ofTree, ofData?_toData items]
  | .object members => by simp [Tree.toDatum, ofDatum?, ofTree, ofPairs?_toPairs members]

theorem ofData?_toData : ∀ ts : List Tree, ofData? (Tree.toData ts) = some (ofTrees ts)
  | [] => rfl
  | t :: ts => by simp [Tree.toData, ofData?, ofTrees, ofDatum?_toDatum t, ofData?_toData ts]

theorem ofPairs?_toPairs :
    ∀ ms : List (String × Tree), ofPairs? (Tree.toPairs ms) = some (ofMembers ms)
  | [] => rfl
  | (s, t) :: ms => by
    simp [Tree.toPairs, ofPairs?, ofMembers, Key.ofDatum?, ofDatum?_toDatum t,
      ofPairs?_toPairs ms]

end

theorem isSome_ofDatum?_toDatum (t : Tree) : (ofDatum? t.toDatum).isSome := by
  simp [ofDatum?_toDatum]

end Value

end DocTree
