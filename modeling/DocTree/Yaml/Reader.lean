import DocTree.Yaml.Node
import DocTree.Yaml.Schema
import DocTree.Yaml.Token.Stream

/-!
# Reading YAML

The datum of a YAML text: its document with scalars read by the schema and aliases
followed. Collections may nest 128 deep, aliases included, which also ends a document
that contains itself. How often aliases are followed is limited by the size of the
document. A text without any document is null.

## Main definitions

* `Document.datum`: the datum of a node.
* `Yaml.parse`: the datum of a text.
-/

namespace DocTree

namespace Yaml

namespace Document

/-- The node that a node stands for, and how many aliases have been followed by then. -/
def follow (d : Document) (followed : Nat) : Node → Read (Node × Nat)
  | .alias slot =>
    if 100 * d.size < followed + 1 then .error .tooManyAliases
    else
      match d.inSlot? slot with
      | some n => .ok (n, followed + 1)
      | none => .error .unknownAlias
  | n => .ok (n, followed)

/-- Reads elements one after the other, counting aliases. -/
def each {α β : Type} (read : Nat → α → Read (β × Nat)) :
    Nat → List α → Read (List β × Nat)
  | followed, [] => .ok ([], followed)
  | followed, a :: as => do
    let (b, followed) ← read followed a
    let (bs, followed) ← each read followed as
    return (b :: bs, followed)

/-- A datum with the tag of a collection. Only the name of a local tag matters there. -/
def withTag (tag : Option Tag) (content : Datum) : Datum :=
  match tag.bind Tag.localName? with
  | some name => .tagged name content
  | none => content

/-- The datum of a node in which at most this many collections are nested, and how many aliases
    have been followed. -/
def datum (d : Document) : Nat → Nat → Node → Read (Datum × Nat)
  | nesting, followed, n => do
    let (n, followed) ← d.follow followed n
    match n with
    | .scalar none plain content =>
      let datum ← if plain then plainDatum content else pure (.string (String.ofList content))
      return (datum, followed)
    | .scalar (some tag) plain content => return (← taggedDatum tag plain content, followed)
    | .sequence tag items =>
      match nesting with
      | 0 => throw .nestedTooDeep
      | nesting + 1 =>
        let (ds, followed) ← each (datum d nesting) followed items
        return (withTag tag (.list ds), followed)
    | .mapping tag pairs =>
      match nesting with
      | 0 => throw .nestedTooDeep
      | nesting + 1 =>
        let pair (followed : Nat) (p : Node × Node) : Read ((Datum × Datum) × Nat) := do
          let (k, followed) ← datum d nesting followed p.1
          let (v, followed) ← datum d nesting followed p.2
          return ((k, v), followed)
        let (ps, followed) ← each pair followed pairs
        return (withTag tag (.map ps), followed)
    -- No anchored node is an alias, so `follow` never ends at one.
    | .alias _ => throw .unknownAlias

end Document

/-- How deep collections may nest. -/
def maxNesting : Nat := 128

/-- The datum of a YAML text. -/
def parse (text : String) : Read Datum := do
  match ← Document.ofTokens (← Token.ofText text.toList) with
  | some d => return (← d.datum maxNesting 0 d.root).1
  | none => return .null

end Yaml

end DocTree
