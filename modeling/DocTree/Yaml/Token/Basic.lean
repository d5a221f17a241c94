import DocTree.Yaml.Tag

/-!
# YAML Tokens

A YAML text as a flat list of tokens. Indentation has become explicit: the start and
end of every block collection is a token, and a `key` token stands before every key,
also one that nothing in the text announces.

## Main definitions

* `Yaml.Token`: one token.
-/

namespace DocTree

namespace Yaml

/-- One token. The end of the list of tokens is the end of the text. -/
inductive Token where
  /-- The directive that names the version of the language. -/
  | version (major minor : Nat)
  /-- The directive that gives a tag handle a meaning. -/
  | tagMeaning (handle : List Char) (meaning : List UInt8)
  | documentStart
  | documentEnd
  | blockSequence
  | blockMapping
  | blockEnd
  | flowSequence
  | flowSequenceEnd
  | flowMapping
  | flowMappingEnd
  /-- The dash before an item. -/
  | entry
  /-- The comma between items. -/
  | comma
  | key
  | value
  | alias (name : List Char)
  | anchor (name : List Char)
  | tag (handle : List Char) (suffix : List UInt8)
  /-- A scalar, with a flag for one without quotes or header. -/
  | scalar (plain : Bool) (content : List Char)
deriving DecidableEq

end Yaml

end DocTree
