import DocTree.Utf8

/-!
# YAML Tags

A tag says what kind a node is of. It is a string of bytes: in a text a percent sign and
two digits may spell any byte, so the bytes need not be the encoding of a text. A byte of
zero ends a tag, and what was written after it does not count.

Four tags of the standard decide what a scalar means. A tag that starts with an
exclamation mark is *local*: it names a kind that only the writer of the text knows, unless
what follows the mark is no text.

## Main definitions

* `Tag`: a tag.
* `Tag.standard`: the tags of the standard.
* `Tag.cut`: the bytes that count.
* `Tag.isLocal`, `Tag.localName?`: local tags and their names.
-/

namespace DocTree

namespace Yaml

/-- A tag, written out in full. -/
structure Tag where
  bytes : List UInt8
deriving DecidableEq

namespace Tag

/-- The bytes that all tags of the standard start with. -/
def standardStart : List UInt8 :=
  Utf8.encode "tag:yaml.org,2002:"

/-- A tag of the standard. -/
def standard (kind : String) : Tag :=
  ⟨standardStart ++ Utf8.encode kind⟩

/-- The exclamation mark. -/
def localMark : UInt8 := 0x21

/-- The bytes up to the first zero. -/
def cut (bytes : List UInt8) : List UInt8 :=
  bytes.takeWhile (· ≠ 0)

def isLocal (t : Tag) : Bool :=
  t.bytes.head? = some localMark

/-- The name of a local tag, which may be empty. -/
def localName? (t : Tag) : Option String :=
  if t.isLocal then Utf8.decode? t.bytes.tail else none

end Tag

end Yaml

end DocTree
