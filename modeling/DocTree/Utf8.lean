/-!
# UTF-8

Texts as bytes. Both formats measure some lengths in bytes rather than characters, and
escapes can spell bytes that are not the encoding of any text.

## Main definitions

* `Utf8.byteLength`: how many bytes a text has.
* `Utf8.encode`, `Utf8.decode?`: bytes of a text, and back.

## Theorems

* `byteLength_append`: lengths add up.
* `length_le_byteLength`: no text has more characters than bytes.
-/

namespace DocTree

namespace Utf8

/-- The number of bytes of a text. -/
def byteLength (cs : List Char) : Nat :=
  cs.foldl (fun n c => n + c.utf8Size) 0

theorem foldl_utf8Size (cs : List Char) (n : Nat) :
    cs.foldl (fun n c => n + c.utf8Size) n = n + byteLength cs := by
  unfold byteLength
  induction cs generalizing n with
  | nil => rfl
  | cons c cs ih =>
    rw [List.foldl_cons, List.foldl_cons, ih (n + c.utf8Size), ih (0 + c.utf8Size)]
    omega

theorem byteLength_append (cs ds : List Char) :
    byteLength (cs ++ ds) = byteLength cs + byteLength ds := by
  unfold byteLength
  rw [List.foldl_append, foldl_utf8Size, byteLength]

theorem byteLength_cons (c : Char) (cs : List Char) :
    byteLength (c :: cs) = c.utf8Size + byteLength cs := by
  rw [← List.singleton_append, byteLength_append, byteLength, List.foldl_cons, List.foldl_nil,
    Nat.zero_add]

/-- Every character has a byte at least. -/
theorem length_le_byteLength (cs : List Char) : cs.length ≤ byteLength cs := by
  induction cs with
  | nil => exact Nat.le_refl 0
  | cons c cs ih =>
    have := c.utf8Size_pos
    rw [byteLength_cons, List.length_cons]
    omega

/-- The bytes of a text. -/
def encode (s : String) : List UInt8 :=
  s.toUTF8.toList

/-- The text of bytes, if they are the encoding of one: no byte missing or left over, no
    character in a longer form than it needs, no surrogates. -/
def decode? (bytes : List UInt8) : Option String :=
  String.fromUTF8? bytes.toByteArray

end Utf8

end DocTree
