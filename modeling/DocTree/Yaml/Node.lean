import DocTree.Yaml.Token.Basic
import DocTree.Yaml.Error

/-!
# YAML Nodes

The tokens of a text put together into one document: a tree of scalars, sequences and
mappings, in which tags are written out and aliases still stand for themselves.

An anchor names a *slot*, and an alias refers to the slot that its anchor names at that
point. The number of a new slot is the number of names in use when the anchored node
starts. So an anchor that is defined again moves to a new slot, whose number the next new
name may get as well. What is in a slot is looked up when all is read: it is the node
that was anchored there last, even if that comes after the alias.

## Main definitions

* `Node`: a node of the tree.
* `Document`: the root and the anchored nodes.
* `Document.ofTokens`: the document of the tokens of a text.
-/

namespace DocTree

namespace Yaml

/-- A node of a document. -/
inductive Node where
  | scalar (tag : Option Tag) (plain : Bool) (content : List Char)
  | sequence (tag : Option Tag) (items : List Node)
  | mapping (tag : Option Tag) (pairs : List (Node × Node))
  | alias (slot : Nat)
deriving Inhabited

/-- What is known while nodes are put together. -/
structure Assembly where
  tokens : List Token
  /-- What tag handles mean. -/
  handles : List (List Char × List UInt8)
  /-- The slot of each anchor. -/
  anchors : List (List Char × Nat)
  /-- The anchored nodes by slot, latest first, each named by its number. -/
  slots : List (Nat × Nat)
  /-- The anchored nodes that are complete, by number. -/
  anchored : List (Nat × Node)
  /-- How many scalars and aliases there are, and brackets of sequences and mappings. -/
  size : Nat

namespace Assembly

/-- Passes over a token. -/
def skip (a : Assembly) : Assembly :=
  { a with tokens := a.tokens.tail }

def next? (a : Assembly) : Option Token :=
  a.tokens.head?

/-- One of these tokens comes next. -/
def at? (a : Assembly) (ts : List Token) : Bool :=
  a.tokens.head?.any ts.contains

/-- Puts a node that is about to start into the slot of its anchor. -/
def place (a : Assembly) : Option (List Char) → Assembly
  | none => a
  | some name =>
    let slot := a.anchors.length
    { a with
      anchors := (name, slot) :: a.anchors.filter (·.1 ≠ name)
      slots := (slot, a.slots.length) :: a.slots }

/-- Records an anchored node that is complete. Its number is how many anchored nodes had
    started before it. -/
def record (a : Assembly) (anchor : Option (List Char)) (number : Nat) (n : Node) :
    Node × Assembly :=
  match anchor with
  | none => (n, a)
  | some _ => (n, { a with anchored := (number, n) :: a.anchored })

def grow (a : Assembly) (n : Nat) : Assembly :=
  { a with size := a.size + n }

/-- A node that is not written. -/
def absent (a : Assembly) : Node × Assembly :=
  (.scalar none true [], a.grow 1)

/-- The full text of a tag. -/
def fullTag (a : Assembly) (handle : List Char) (suffix : List UInt8) : Read Tag :=
  if handle.isEmpty then .ok ⟨suffix⟩
  else
    match a.handles.lookup handle with
    | some meaning => .ok ⟨meaning ++ suffix⟩
    | none => .error .undefinedTagHandle

/-- The anchor and the tag of a node, in either order. -/
def properties (a : Assembly) : Read (Option (List Char) × Option Tag × Assembly) :=
  match a.tokens with
  | .anchor name :: .tag handle suffix :: r
  | .tag handle suffix :: .anchor name :: r => do
    return (some name, some (← a.fullTag handle suffix), { a with tokens := r })
  | .anchor name :: r => .ok (some name, none, { a with tokens := r })
  | .tag handle suffix :: r => do
    return (none, some (← a.fullTag handle suffix), { a with tokens := r })
  | _ => .ok (none, none, a)

/-! ## Collections -/

/-- Reads a node. The flags tell whether it may be a block, and whether it may be a sequence
    whose dashes are not indented. -/
abbrev NodeReader := Bool → Bool → Assembly → Read (Node × Assembly)

/-- Reads a node unless one of these tokens comes next. -/
def optional (node : NodeReader) (block indentless : Bool) (ends : List Token)
    (a : Assembly) : Read (Node × Assembly) :=
  if a.at? ends then .ok a.absent else node block indentless a

/-- The items of a block sequence and its end. -/
def blockItems (node : NodeReader) : Nat → Assembly → Read (List Node × Assembly)
  | 0, _ => .error .expectedEntry
  | fuel + 1, a =>
    match a.next? with
    | some .entry => do
      let (n, a) ← optional node true false [.entry, .blockEnd] a.skip
      let (ns, a) ← blockItems node fuel a
      return (n :: ns, a)
    | some .blockEnd => .ok ([], a.skip)
    | _ => .error .expectedEntry

/-- The items of a sequence whose dashes are not indented. Nothing marks its end. -/
def indentlessItems (node : NodeReader) : Nat → Assembly → Read (List Node × Assembly)
  | 0, a => .ok ([], a)
  | fuel + 1, a =>
    match a.next? with
    | some .entry => do
      let (n, a) ← optional node true false [.entry, .key, .value, .blockEnd] a.skip
      let (ns, a) ← indentlessItems node fuel a
      return (n :: ns, a)
    | _ => .ok ([], a)

/-- The value of a pair, absent if no `value` token comes next. -/
def pairValue (node : NodeReader) (block : Bool) (ends : List Token) (a : Assembly) :
    Read (Node × Assembly) :=
  match a.next? with
  | some .value => optional node block block ends a.skip
  | _ => .ok a.absent

/-- The pairs of a block mapping and its end. -/
def blockPairs (node : NodeReader) : Nat → Assembly → Read (List (Node × Node) × Assembly)
  | 0, _ => .error .expectedKey
  | fuel + 1, a =>
    match a.next? with
    | some .key => do
      let (k, a) ← optional node true true [.key, .value, .blockEnd] a.skip
      let (v, a) ← pairValue node true [.key, .value, .blockEnd] a
      let (ps, a) ← blockPairs node fuel a
      return ((k, v) :: ps, a)
    | some .blockEnd => .ok ([], a.skip)
    | _ => .error .expectedKey

/-- Passes over the comma before an item that is not the first. -/
def separator (first : Bool) (a : Assembly) : Read Assembly :=
  if first then .ok a
  else
    match a.next? with
    | some .comma => .ok a.skip
    | _ => .error .expectedComma

/-- The items of a sequence between brackets, and the closing one. An item with a key is a
    mapping of one pair. -/
def flowItems (node : NodeReader) : Nat → Bool → Assembly → Read (List Node × Assembly)
  | 0, _, _ => .error .expectedComma
  | fuel + 1, first, a =>
    if a.at? [.flowSequenceEnd] then .ok ([], a.skip)
    else do
      let a ← separator first a
      match a.next? with
      | some .flowSequenceEnd => return ([], a.skip)
      | some .key =>
        let (k, a) ← optional node false false [.value, .comma, .flowSequenceEnd] a.skip
        let (v, a) ← pairValue node false [.comma, .flowSequenceEnd] a
        let (ns, a) ← flowItems node fuel false (a.grow 2)
        return (.mapping none [(k, v)] :: ns, a)
      | _ =>
        let (n, a) ← node false false a
        let (ns, a) ← flowItems node fuel false a
        return (n :: ns, a)

/-- The pairs of a mapping between braces, and the closing one. An item without a key is a key
    without a value. -/
def flowPairs (node : NodeReader) :
    Nat → Bool → Assembly → Read (List (Node × Node) × Assembly)
  | 0, _, _ => .error .expectedComma
  | fuel + 1, first, a =>
    if a.at? [.flowMappingEnd] then .ok ([], a.skip)
    else do
      let a ← separator first a
      match a.next? with
      | some .flowMappingEnd => return ([], a.skip)
      | some .key =>
        let (k, a) ← optional node false false [.value, .comma, .flowMappingEnd] a.skip
        let (v, a) ← pairValue node false [.comma, .flowMappingEnd] a
        let (ps, a) ← flowPairs node fuel false a
        return ((k, v) :: ps, a)
      | _ =>
        let (k, a) ← node false false a
        let (v, a) := a.absent
        let (ps, a) ← flowPairs node fuel false a
        return ((k, v) :: ps, a)

/-! ## Nodes -/

/-- What stands behind the properties of a node. Only a node with properties may have no
    content. The number bounds the elements of a collection. -/
def content (node : NodeReader) (fuel : Nat) (block indentless : Bool) (bare : Bool)
    (tag : Option Tag) (a : Assembly) : Read (Node × Assembly) :=
  match a.next? with
  | some (.scalar plain text) => .ok (.scalar tag plain text, (a.grow 1).skip)
  | some .flowSequence => do
    let (ns, a) ← flowItems node fuel true (a.grow 2).skip
    return (.sequence tag ns, a)
  | some .flowMapping => do
    let (ps, a) ← flowPairs node fuel true (a.grow 2).skip
    return (.mapping tag ps, a)
  | t =>
    if indentless && t = some .entry then do
      let (ns, a) ← indentlessItems node fuel (a.grow 2)
      return (.sequence tag ns, a)
    else if block && t = some .blockSequence then do
      let (ns, a) ← blockItems node fuel (a.grow 2).skip
      return (.sequence tag ns, a)
    else if block && t = some .blockMapping then do
      let (ps, a) ← blockPairs node fuel (a.grow 2).skip
      return (.mapping tag ps, a)
    else if bare then .error .expectedContent
    else .ok (.scalar tag true [], a.grow 1)

/-- A node. The first number bounds the elements of a collection, and the second counts down
    with every collection that is entered. -/
def node (fuel : Nat) : Nat → NodeReader
  | 0, _, _, _ => .error .nestedTooDeep
  | nesting + 1, block, indentless, a =>
    match a.next? with
    | some (.alias name) =>
      match a.anchors.lookup name with
      | some slot => .ok (.alias slot, (a.grow 1).skip)
      | none => .error .unknownAlias
    | _ => do
      let (anchor, tag, a) ← a.properties
      -- Before the content, which may have anchors of its own.
      let number := a.slots.length
      let bare := anchor.isNone && tag.isNone
      let (n, a) ← content (node fuel nesting) fuel block indentless bare tag (a.place anchor)
      return a.record anchor number n

end Assembly

/-! ## Documents -/

/-- A document: its root, what is in its slots, and its size. -/
structure Document where
  root : Node
  slots : List (Nat × Nat)
  anchored : List (Nat × Node)
  size : Nat

namespace Document

/-- The meanings of tag handles without any directive. -/
def standardHandles : List (List Char × List UInt8) :=
  [(['!'], [Tag.localMark]), (['!', '!'], Tag.standardStart)]

/-- Reads directives: at most one of the version, which has to be 1.1 or 1.2, and no two for
    one tag handle. -/
def directives : Bool → List (List Char × List UInt8) → List Token →
    Read (List (List Char × List UInt8) × List Token)
  | versioned, handles, .version major minor :: r =>
    if versioned || major ≠ 1 || (minor ≠ 1 && minor ≠ 2) then .error .badDirective
    else directives true handles r
  | versioned, handles, .tagMeaning handle meaning :: r =>
    if (handles.lookup handle).isSome then .error .badDirective
    else directives versioned ((handle, meaning) :: handles) r
  | _, handles, r => .ok (handles, r)

/-- The node in a slot. -/
def inSlot? (d : Document) (slot : Nat) : Option Node :=
  (d.slots.lookup slot).bind fun number => d.anchored.lookup number

/-- The document of the tokens of a text; there is none if there are no tokens. A second
    document is an error. Only after a mark may the document be empty. -/
def ofTokens (tokens : List Token) : Read (Option Document) := do
  if tokens.isEmpty then return none
  let (handles, rest) ← directives false [] tokens
  let start : Assembly := ⟨rest, handles ++ standardHandles, [], [], [], 0⟩
  -- Every element of a collection takes a token, and so does every collection.
  let fuel := tokens.length + 1
  let node := Assembly.node fuel fuel true false
  let (root, a) ←
    match rest with
    | .documentStart :: r =>
      if r.isEmpty || start.skip.at? [.documentStart, .documentEnd] then pure start.skip.absent
      else node start.skip
    -- Only a document without directives may leave out the mark.
    | _ => if rest.length = tokens.length then node start else throw .expectedDocumentStart
  if (a.tokens.dropWhile (· = .documentEnd)).isEmpty then
    return some ⟨root, a.slots, a.anchored, a.size⟩
  else throw .severalDocuments

end Document

end Yaml

end DocTree
