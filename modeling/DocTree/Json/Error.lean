import DocTree.Utf8

/-!
# JSON Errors

Why a text is not JSON, and where. While reading, a place is counted from the end
of the text, since a reader knows what it has left; `SyntaxError.locate` turns that
into a line and a column. Lines count from 1. A column is the number of bytes
between the last line feed and the place.

## Main definitions

* `Json.Cause`: what is wrong.
* `Json.Fault`: a cause and the bytes that were left.
* `Json.SyntaxError`: a cause with line and column, and its text.
-/

namespace DocTree

namespace Json

/-- What is wrong with a text that is not JSON. -/
inductive Cause where
  | endInValue
  | endInList
  | endInObject
  | endInString
  | expectedColon
  | expectedCommaOrBracket
  | expectedCommaOrBrace
  | expectedLiteral
  | expectedValue
  | invalidEscape
  | invalidNumber
  | numberOutOfRange
  | loneSurrogate
  | endOfHexEscape
  | controlCharacter
  | keyNotString
  | trailingComma
  | trailingCharacters
  | nestedTooDeep
deriving DecidableEq

/-- The wording of a cause. -/
def Cause.text : Cause → String
  | endInValue => "EOF while parsing a value"
  | endInList => "EOF while parsing a list"
  | endInObject => "EOF while parsing an object"
  | endInString => "EOF while parsing a string"
  | expectedColon => "expected `:`"
  | expectedCommaOrBracket => "expected `,` or `]`"
  | expectedCommaOrBrace => "expected `,` or `\x7d`"
  | expectedLiteral => "expected ident"
  | expectedValue => "expected value"
  | invalidEscape => "invalid escape"
  | invalidNumber => "invalid number"
  | numberOutOfRange => "number out of range"
  | loneSurrogate => "lone leading surrogate in hex escape"
  | endOfHexEscape => "unexpected end of hex escape"
  | controlCharacter => "control character (\\u0000-\\u001F) found while parsing a string"
  | keyNotString => "key must be a string"
  | trailingComma => "trailing comma"
  | trailingCharacters => "trailing characters"
  | nestedTooDeep => "recursion limit exceeded"

/-- A cause and the number of bytes behind the place it is reported for. -/
structure Fault where
  cause : Cause
  unread : Nat

/-- A fault at the point that reading has reached. -/
def Fault.here (cause : Cause) (rest : List Char) : Fault :=
  ⟨cause, Utf8.byteLength rest⟩

/-- A fault one byte further on, if there is one: the byte that was looked at counts
    as read. -/
def Fault.next (cause : Cause) (rest : List Char) : Fault :=
  ⟨cause, Utf8.byteLength rest - 1⟩

/-- What is wrong with a text, and where. -/
structure SyntaxError where
  cause : Cause
  line : Nat
  column : Nat
deriving DecidableEq

/-- The line and column after the first `n` bytes of a text, counted on from `line` and
    `column`. A character that is only partly among those bytes adds that part to the
    column. -/
def position : Nat → Nat → Nat → List Char → Nat × Nat
  | line, column, _, [] => (line, column)
  | line, column, n, c :: cs =>
    if n = 0 then (line, column)
    else if c = '\n' then position (line + 1) 0 (n - 1) cs
    else position line (column + min n c.utf8Size) (n - c.utf8Size) cs

/-- The error of a fault in a text. -/
def SyntaxError.locate (text : List Char) (fault : Fault) : SyntaxError :=
  let (line, column) := position 1 0 (Utf8.byteLength text - fault.unread) text
  ⟨fault.cause, line, column⟩

/-- The message of an error. -/
def SyntaxError.message (e : SyntaxError) : String :=
  e.cause.text ++ " at line " ++ toString e.line ++ " column " ++ toString e.column

end Json

end DocTree
