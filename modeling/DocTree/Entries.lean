import DocTree.Key

/-!
# Entries

The content of a container: keyed entries in the order in which they were
inserted. A container doubles as a sequence, since an index is just a key, and
all sequence operations are defined by how they choose index keys.

* `push` takes the next index: one past the largest, or the smallest free one
  when the largest possible index is taken.
* `renumber` makes the indices 0, 1, 2, … in entry order and leaves names alone.
* `prepend` puts values in front and renumbers.

Looking up takes the first entry with a key. The operations never make a second
one (`insert` overwrites in place), which is why a list is a faithful map.

## Main definitions

* `Entries`: the entries of a container.
* `Entries.get?`, `Entries.insert`, `Entries.erase`: the map operations.
* `Entries.nextIndex`, `Entries.push`, `Entries.prepend`, `Entries.renumber`:
  the sequence operations.
* `Entries.IsSequence`, `Entries.ofValues`, `Entries.collect`: building and
  recognising sequences and maps.
-/

namespace DocTree

/-- Keyed entries in insertion order. -/
abbrev Entries (α : Type) := List (Key × α)

namespace Entries

variable {α : Type}

def keys (c : Entries α) : List Key :=
  c.map Prod.fst

def values (c : Entries α) : List α :=
  c.map Prod.snd

/-- The value of the first entry with this key. -/
def get? : Entries α → Key → Option α
  | [], _ => none
  | (k, v) :: c, key => if k = key then some v else get? c key

def has (c : Entries α) (key : Key) : Bool :=
  (get? c key).isSome

/-- Writes a value: over the entry with this key if there is one, else as a new
    last entry. -/
def insert : Entries α → Key → α → Entries α
  | [], key, w => [(key, w)]
  | (k, v) :: c, key, w => if k = key then (k, w) :: c else (k, v) :: insert c key w

/-- Writes a value over the entry with this key, if there is one. -/
def overwrite : Entries α → Key → α → Entries α
  | [], _, _ => []
  | (k, v) :: c, key, w => if k = key then (k, w) :: c else (k, v) :: overwrite c key w

/-- Adds a last entry with a default value unless the key is there already. -/
def ensure (c : Entries α) (key : Key) (default : α) : Entries α :=
  if has c key then c else c ++ [(key, default)]

/-- Removes the first entry with this key. -/
def erase : Entries α → Key → Entries α
  | [], _ => []
  | (k, v) :: c, key => if k = key then c else (k, v) :: erase c key

/-- The integers among the keys, in entry order. -/
def indices (c : Entries α) : List Int :=
  c.filterMap fun e => e.1.index?.map Int64.toInt

/-- The smallest natural number that is not an index key. One of the first
    `length + 1` naturals is free, since the entries cannot use them all. -/
def firstFreeIndex (c : Entries α) : Nat :=
  ((List.range (c.length + 1)).find? fun i : Nat => (i : Int) ∉ c.indices).getD c.length

/-- The index of the next pushed value: 0 when there is no index, one past the
    largest one, or the smallest free one when there is nothing past the largest. -/
def nextIndex (c : Entries α) : Int64 :=
  match (indices c).max? with
  | none => 0
  | some i => (Decimal.int64? (i + 1)).getD (Int64.ofNat (firstFreeIndex c))

/-- Adds a value as the last entry, under the next index. -/
def push (c : Entries α) (v : α) : Entries α :=
  c ++ [(.index (nextIndex c), v)]

/-- Numbers the index keys in entry order, from `n` on. -/
def renumberFrom : Nat → Entries α → Entries α
  | _, [] => []
  | n, (.index _, v) :: c => (.index (Int64.ofNat n), v) :: renumberFrom (n + 1) c
  | n, (.name s, v) :: c => (.name s, v) :: renumberFrom n c

/-- Numbers the index keys 0, 1, 2, … in entry order. -/
def renumber (c : Entries α) : Entries α :=
  renumberFrom 0 c

/-- Values under the indices from `n` on. -/
def numberedFrom : Nat → List α → Entries α
  | _, [] => []
  | n, v :: vs => (.index (Int64.ofNat n), v) :: numberedFrom (n + 1) vs

/-- The sequence of these values. -/
def ofValues (vs : List α) : Entries α :=
  numberedFrom 0 vs

/-- The map of these pairs. A repeated key keeps its first place and its last
    value. -/
def collect (pairs : List (Key × α)) : Entries α :=
  pairs.foldl (fun c e => insert c e.1 e.2) []

/-- Puts values in front, in order, and renumbers. The keys they carry until
    then do not matter. -/
def prepend (c : Entries α) (vs : List α) : Entries α :=
  renumber (ofValues vs ++ c)

/-- The keys are exactly `n`, `n + 1`, … in order. -/
def sequenceFrom : Nat → Entries α → Bool
  | _, [] => true
  | n, (k, _) :: c => decide (k = .index (Int64.ofNat n)) && sequenceFrom (n + 1) c

/-- The keys are exactly 0, 1, 2, … in order. -/
def isSequence (c : Entries α) : Bool :=
  sequenceFrom 0 c

/-- No two entries have the same key. -/
def Distinct (c : Entries α) : Prop :=
  (keys c).Nodup

end Entries

end DocTree
