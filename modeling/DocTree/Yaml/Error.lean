/-!
# YAML Errors

Why a text is not YAML, or is YAML that no datum stands for.

## Main definitions

* `Yaml.Cause`: what is wrong, and its text.
-/

namespace DocTree

namespace Yaml

/-- What is wrong with a text. -/
inductive Cause where
  | forbiddenCharacter
  | noTokenStart
  | missingColon
  | misplacedEntry
  | misplacedKey
  | misplacedValue
  | badDirective
  | badAnchor
  | badTag
  | undefinedTagHandle
  | badBlockHeader
  | tabAsIndentation
  | unclosedQuote
  | markInQuotes
  | badEscape
  | ambiguousColon
  | expectedContent
  | expectedEntry
  | expectedKey
  | expectedComma
  | expectedDocumentStart
  | severalDocuments
  | unknownAlias
  | tooManyAliases
  | nestedTooDeep
  | integerTooLarge
  | contentUnlikeTag
  | unfit
deriving DecidableEq

/-- The wording of a cause. -/
def Cause.text : Cause → String
  | forbiddenCharacter => "control characters are not allowed"
  | noTokenStart => "found character that cannot start any token"
  | missingColon => "could not find expected ':'"
  | misplacedEntry => "block sequence entries are not allowed in this context"
  | misplacedKey => "mapping keys are not allowed in this context"
  | misplacedValue => "mapping values are not allowed in this context"
  | badDirective => "malformed directive"
  | badAnchor => "malformed anchor or alias"
  | badTag => "malformed tag"
  | undefinedTagHandle => "found undefined tag handle"
  | badBlockHeader => "malformed block scalar header"
  | tabAsIndentation => "found a tab character where an indentation space is expected"
  | unclosedQuote => "found unexpected end of stream in a quoted scalar"
  | markInQuotes => "found unexpected document indicator in a quoted scalar"
  | badEscape => "found unknown or malformed escape"
  | ambiguousColon => "found unexpected ':'"
  | expectedContent => "did not find expected node content"
  | expectedEntry => "did not find expected '-' indicator"
  | expectedKey => "did not find expected key"
  | expectedComma => "did not find expected ',' or closing bracket"
  | expectedDocumentStart => "did not find expected <document start>"
  | severalDocuments => "found more than one document"
  | unknownAlias => "unknown anchor"
  | tooManyAliases => "aliases repeat too much"
  | nestedTooDeep => "recursion limit exceeded"
  | integerTooLarge => "integer out of range"
  | contentUnlikeTag => "scalar does not fit its tag"
  | unfit => "data did not match any kind of value"

/-- The outcome of reading. -/
abbrev Read := Except Cause

end Yaml

end DocTree
