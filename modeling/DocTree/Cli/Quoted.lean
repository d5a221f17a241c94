import DocTree.Unseen

/-!
# Quoted File Names

A file name in an error message stands between double quotes. Double quotes and
backslashes are escaped, and so are the unseen characters, by their number or a letter.

## Main definitions

* `Quoted.quote`: a name between quotes.
-/

namespace DocTree

namespace Quoted

/-- A character of a name. -/
def quoteChar (c : Char) : List Char :=
  match c with
  | '\x00' => ['\\', '0']
  | '\t' => ['\\', 't']
  | '\n' => ['\\', 'n']
  | '\r' => ['\\', 'r']
  | '\x22' => ['\\', '\x22']
  | '\\' => ['\\', '\\']
  | c =>
    if Unseen.isUnseen c then ['\\', 'u', '\x7b'] ++ Nat.toDigits 16 c.toNat ++ ['\x7d'] else [c]

/-- A name between quotes. -/
def quote (s : String) : String :=
  String.ofList ('\x22' :: s.toList.flatMap quoteChar ++ ['\x22'])

end Quoted

end DocTree
