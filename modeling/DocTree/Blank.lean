/-!
# Blank Characters

The characters with the Unicode property `White_Space`, and trimming them off a
text. Selector arguments are trimmed on both sides, printed documents at the end.

## Main definitions

* `Blank.isBlank`: the character class.
* `Blank.trimStart`, `Blank.trimEnd`, `Blank.trim`: texts without outer blanks.
-/

namespace DocTree

namespace Blank

/-- The code points with the property `White_Space`, as ranges. -/
def ranges : List (Nat × Nat) :=
  [(0x09, 0x0D), (0x20, 0x20), (0x85, 0x85), (0xA0, 0xA0), (0x1680, 0x1680),
   (0x2000, 0x200A), (0x2028, 0x2029), (0x202F, 0x202F), (0x205F, 0x205F),
   (0x3000, 0x3000)]

def isBlank (c : Char) : Bool :=
  ranges.any fun r => r.1 ≤ c.toNat && c.toNat ≤ r.2

def trimStart (cs : List Char) : List Char :=
  cs.dropWhile isBlank

def trimEnd (cs : List Char) : List Char :=
  (cs.reverse.dropWhile isBlank).reverse

def trim (cs : List Char) : List Char :=
  trimEnd (trimStart cs)

end Blank

end DocTree
