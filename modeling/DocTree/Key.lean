import DocTree.Decimal

/-!
# Keys

The key of a container entry is an integer or a name. In text the two are told
apart by spelling: the canonical decimal text of a 64-bit integer is that
integer, and every other text is a name. So `007`, `+1` and `1.0` are names, and
so is an integer too large for 64 bits.

A name may still spell an integer when it is built directly; such a key is
*not canonical*, and its text reads back as the integer.

## Main definitions

* `Key`: an integer or a name.
* `Key.parse`, `Key.text`: keys from text and back.
* `Key.compare`: integers before names, each in their own order.
-/

namespace DocTree

/-- The key of a container entry. -/
inductive Key where
  | index (i : Int64)
  | name (s : String)
deriving DecidableEq

namespace Key

/-- The key a text denotes: an index if the text is the canonical decimal text of
    a 64-bit integer, a name otherwise. -/
def parse (text : String) : Key :=
  match (Decimal.canonical? text.toList).bind Decimal.int64? with
  | some i => .index i
  | none => .name text

/-- The text of a key. -/
def text : Key → String
  | index i => String.ofList (Decimal.ofInt i.toInt)
  | name s => s

/-- The integer of an index key. -/
def index? : Key → Option Int64
  | index i => some i
  | name _ => none

def isIndex : Key → Bool
  | index _ => true
  | name _ => false

/-- A key that its own text denotes. -/
def Canonical (k : Key) : Prop :=
  parse k.text = k

instance (k : Key) : Decidable k.Canonical :=
  inferInstanceAs (Decidable (parse k.text = k))

/-- Every index comes before every name; indices are in numeric order and names
    in the order of their code points. -/
def compare : Key → Key → Ordering
  | index i, index j => Ord.compare i.toInt j.toInt
  | index _, name _ => .lt
  | name _, index _ => .gt
  | name s, name t => Ord.compare s t

instance : Ord Key := ⟨compare⟩

end Key

end DocTree
