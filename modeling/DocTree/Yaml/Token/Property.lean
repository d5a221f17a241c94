import DocTree.Yaml.Token.Basic
import DocTree.Yaml.Token.Scalar

/-!
# Anchors, Tags and Directives

The tokens that start with `&`, `*`, `!` and `%`. A tag is a handle and a suffix; what
the handle means is settled when the document is put together. In a suffix `%` and two
hexadecimal digits stand for a byte, and such bytes have to spell characters.

## Main definitions

* `anchorName`: the name of an anchor or alias.
* `tagToken`: a tag.
* `directive`: a directive.
-/

namespace DocTree

namespace Yaml

/-- The name after `&` or `*`. It is not empty and ends at a gap or a mark. -/
def anchorName (i : Input) : Read (List Char × Input) :=
  let (name, i) := (i.skip 1).takeWhile isWordChar
  let ended :=
    atGap i.rest || i.rest.head?.any fun c =>
      c = '?' || c = ':' || c = ',' || c = ']' || c = '\x7d' || c = '%' || c = '@' || c = '\x60'
  if name.isEmpty || !ended then .error .badAnchor else .ok (name, i)

/-! ## Tags -/

/-- The characters of a tag suffix. Commas and square brackets are among them only where
    the tag is written out in full. -/
def isTagChar (full : Bool) (c : Char) : Bool :=
  isWordChar c || ";/?:@&=+$.!~*'()".toList.contains c
    || full && (c = ',' || c = '[' || c = ']')

/-- The byte that `%` and two digits stand for. -/
def escapedByte? : List Char → Option UInt8
  | '%' :: a :: b :: _ =>
    (hexDigit? a).bind fun m => (hexDigit? b).map fun n => UInt8.ofNat (16 * m + n)
  | _ => none

/-- How many bytes the character has that starts with this byte. -/
def byteCount? (b : UInt8) : Option Nat :=
  if b < 0x80 then some 1
  else if 0xC0 ≤ b ∧ b < 0xE0 then some 2
  else if 0xE0 ≤ b ∧ b < 0xF0 then some 3
  else if 0xF0 ≤ b ∧ b < 0xF8 then some 4
  else none

/-- The next `n` bytes, all of them such as continue a character. -/
def continuation? : Nat → List Char → Option (List UInt8)
  | 0, _ => some []
  | n + 1, cs =>
    (escapedByte? cs).bind fun b =>
      if 0x80 ≤ b ∧ b < 0xC0 then (continuation? n (cs.drop 3)).map (b :: ·) else none

/-- The bytes of one character. Their values are not looked at any further. -/
def escapedBytes? (cs : List Char) : Option (List UInt8) :=
  (escapedByte? cs).bind fun b =>
    (byteCount? b).bind fun n => (continuation? (n - 1) (cs.drop 3)).map (b :: ·)

/-- A character as a byte. The characters of tags are ASCII. -/
def tagByte (c : Char) : UInt8 :=
  UInt8.ofNat c.toNat

/-- The bytes of a tag suffix. -/
def tagBytes (full : Bool) : Nat → Input → Read (List UInt8 × Input)
  | 0, i => .ok ([], i)
  | fuel + 1, i =>
    match i.rest with
    | [] => .ok ([], i)
    | c :: _ =>
      if c = '%' then
        match escapedBytes? i.rest with
        | some bytes => do
          let (more, i) ← tagBytes full fuel (i.skip (3 * bytes.length))
          return (bytes ++ more, i)
        | none => .error .badTag
      else if isTagChar full c then do
        let (more, i) ← tagBytes full fuel (i.skip 1)
        return (tagByte c :: more, i)
      else .ok ([], i)

/-- A tag handle, as far as it goes: an exclamation mark, word characters, and another
    exclamation mark if there is one. -/
def tagHandle (i : Input) : Read (List Char × Input) :=
  match i.rest with
  | '!' :: _ =>
    let (word, i) := (i.skip 1).takeWhile isWordChar
    if i.rest.head? = some '!' then .ok ('!' :: word ++ ['!'], i.skip 1) else .ok ('!' :: word, i)
  | _ => .error .badTag

/-- A handle that is closed by a second exclamation mark. -/
def isClosedHandle (handle : List Char) : Bool :=
  1 < handle.length && handle.getLast? = some '!'

/-- A tag: `!<suffix>` in full, `!word!suffix` with a named handle, or `!suffix`. An
    exclamation mark alone is a suffix without a handle. -/
def tagToken (flow : Bool) (i : Input) : Read (Token × Input) := do
  let (token, i) ←
    match i.rest with
    | '!' :: '<' :: _ => do
      let (bytes, i) ← tagBytes true (i.left + 1) (i.skip 2)
      if bytes.isEmpty || i.rest.head? ≠ some '>' then .error .badTag
      else pure (Token.tag [] (Tag.cut bytes), i.skip 1)
    | _ => do
      let (handle, i) ← tagHandle i
      let (bytes, i) ← tagBytes false (i.left + 1) i
      if isClosedHandle handle then
        if bytes.isEmpty then .error .badTag else pure (Token.tag handle (Tag.cut bytes), i)
      else
        -- A handle that is not closed is the start of the suffix.
        let suffix := Tag.cut ((handle.drop 1).map tagByte ++ bytes)
        pure (if suffix.isEmpty then Token.tag [] [Tag.localMark] else Token.tag ['!'] suffix, i)
  if atGap i.rest || flow && i.rest.head? = some ',' then return (token, i) else .error .badTag

/-! ## Directives -/

/-- A number of at most nine digits. -/
def versionNumber (i : Input) : Read (Nat × Input) :=
  let (ds, i) := i.takeWhile Char.isDigit
  if ds.isEmpty || 9 < ds.length then .error .badDirective
  else .ok (Nat.ofDigitChars 10 ds 0, i)

/-- The numbers of a version directive. -/
def versionDirective (i : Input) : Read (Token × Input) := do
  let (major, i) ← versionNumber (i.skipWhile isBlank)
  if i.rest.head? ≠ some '.' then throw .badDirective
  let (minor, i) ← versionNumber (i.skip 1)
  return (.version major minor, i)

/-- The handle and the meaning of a tag directive. -/
def tagDirective (i : Input) : Read (Token × Input) := do
  let (handle, i) ← tagHandle (i.skipWhile isBlank)
  if handle ≠ ['!'] && !isClosedHandle handle then throw .badDirective
  if !i.rest.head?.any isBlank then throw .badDirective
  let i := i.skipWhile isBlank
  let (bytes, i) ← tagBytes true (i.left + 1) i
  if bytes.isEmpty || !atGap i.rest then throw .badDirective
  return (.tagMeaning handle (Tag.cut bytes), i)

/-- A directive, with the rest of its line. -/
def directive (i : Input) : Read (Token × Input) := do
  let (name, i) := (i.skip 1).takeWhile isWordChar
  if name.isEmpty || !atGap i.rest then throw .badDirective
  let (token, i) ←
    if name = "YAML".toList then versionDirective i
    else if name = "TAG".toList then tagDirective i
    else throw .badDirective
  let i ← i.finishLine .badDirective
  return (token, i)

end Yaml

end DocTree
