import DocTree.Yaml.Token.Property

/-!
# Tokens of a Text

Reading a text into tokens. Most tokens announce themselves by their first character,
but a key does so only by the colon behind it. So wherever a key may start, the place
is kept as a *candidate*, one for every level of brackets. When a colon comes while the
candidate is still good, a `key` token goes in at its place, and the start of a block
mapping before that if the key is indented deeper than the block around it. A candidate
is good on its own line and for 1024 bytes. One that stands where the block around
it needs a key may not go bad.

Outside brackets columns make the structure: an entry, key or candidate to the right of
the current indentation starts a block, and a token to the left of it ends blocks.

## Main definitions

* `Scanner`: the tokens so far and what has to be remembered.
* `Scanner.fetch`: the next token.
* `Token.ofText?`: the tokens of a text.
-/

namespace DocTree

namespace Yaml

/-- A place where a key may have started. -/
structure Candidate where
  /-- How many tokens come before it. -/
  position : Nat
  required : Bool
  index : Nat
  line : Nat
  column : Nat

/-- The tokens so far, and what has to be remembered to go on. -/
structure Scanner where
  input : Input
  tokens : Array Token
  /-- The column of the current block, -1 outside all blocks. -/
  indent : Int
  /-- The columns of the blocks around it. -/
  outerIndents : List Int
  /-- A key may start here. -/
  keyAllowed : Bool
  /-- The candidate of the current level of brackets. -/
  candidate : Option Candidate
  /-- The candidates of the levels around it, one for each open bracket. -/
  outerCandidates : List (Option Candidate)

namespace Scanner

/-- The start of a text. -/
def start (cs : List Char) : Scanner :=
  ⟨Input.ofText cs, #[], -1, [], true, none, []⟩

/-- Inside brackets. -/
def flow (s : Scanner) : Bool :=
  !s.outerCandidates.isEmpty

def push (s : Scanner) (t : Token) : Scanner :=
  { s with tokens := s.tokens.push t }

/-- Passes over `n` characters and adds the token they make up. -/
def accept (s : Scanner) (n : Nat) (t : Token) : Scanner :=
  { s with input := s.input.skip n, tokens := s.tokens.push t }

/-! ## Blocks -/

/-- Ends the blocks that are indented deeper than a column. -/
def closeBlocks (column : Int) : List Int → Int → Array Token → Int × List Int × Array Token
  | outer, indent, tokens =>
    if indent ≤ column then (indent, outer, tokens)
    else
      match outer with
      | [] => (indent, [], tokens)
      | i :: outer => closeBlocks column outer i (tokens.push .blockEnd)

/-- Ends blocks down to a column, outside brackets. -/
def unroll (s : Scanner) (column : Int) : Scanner :=
  if s.flow then s
  else
    let (indent, outer, tokens) := closeBlocks column s.outerIndents s.indent s.tokens
    { s with indent := indent, outerIndents := outer, tokens := tokens }

/-- Starts a block at a column, outside brackets, if that is deeper than the current one. The
    token goes in after the first `position` tokens. -/
def roll (s : Scanner) (column : Nat) (position : Nat) (t : Token) : Scanner :=
  if !s.flow && s.indent < column then
    { s with
      indent := column
      outerIndents := s.indent :: s.outerIndents
      tokens := s.tokens.insertIdxIfInBounds position t }
  else s

/-! ## Candidates -/

/-- Gives up a candidate; a required one may not be given up. -/
def discard : Option Candidate → Read (Option Candidate)
  | none => .ok none
  | some k => if k.required then .error .missingColon else .ok none

/-- The candidate if it is still good at this place. -/
def refresh (i : Input) : Option Candidate → Read (Option Candidate)
  | none => .ok none
  | some k =>
    if k.line < i.line || k.index + 1024 < i.index then discard (some k) else .ok (some k)

/-- Gives up the candidates that have gone bad. -/
def dropStale (s : Scanner) : Read Scanner := do
  let candidate ← refresh s.input s.candidate
  let outer ← s.outerCandidates.mapM (refresh s.input)
  return { s with candidate := candidate, outerCandidates := outer }

/-- Gives up the candidate of the current level. -/
def dropCandidate (s : Scanner) : Read Scanner := do
  return { s with candidate := ← discard s.candidate }

/-- Keeps the place as a candidate, if a key may start here. -/
def saveCandidate (s : Scanner) : Read Scanner :=
  if s.keyAllowed then do
    let _ ← discard s.candidate
    -- What stands at the column of its block, and is no dash, has to be a key.
    let required : Bool := !s.flow && s.indent = s.input.column
    let i := s.input
    return { s with candidate := some ⟨s.tokens.size, required, i.index, i.line, i.column⟩ }
  else .ok s

/-! ## Tokens -/

/-- Passes over what separates tokens: blanks, comments and breaks. A tab separates only
    where no key may start. A byte order mark at the start of a line separates as well, and
    takes up a column. After a break a key may start, outside brackets. -/
def skipToToken : Nat → Scanner → Scanner
  | 0, s => s
  | fuel + 1, s =>
    let i := s.input
    let i := if i.column = 0 && i.rest.head? = some '\ufeff' then i.skip 1 else i
    let i := i.skipWhile fun c => c = ' ' || c = '\t' && (s.flow || !s.keyAllowed)
    let i := if i.rest.head? = some '#' then i.skipWhile (!isBreak ·) else i
    if i.rest.head?.any isBreak then
      skipToToken fuel { s with input := i.skipBreak, keyAllowed := s.keyAllowed || !s.flow }
    else { s with input := i }

/-- The end of the text: all blocks end. -/
def finish (s : Scanner) : Read Scanner := do
  let s ← (s.unroll (-1)).dropCandidate
  return { s with keyAllowed := false }

/-- A directive or a document mark: all blocks end before it. -/
def fetchDirective (s : Scanner) : Read Scanner := do
  let s ← s.finish
  let (t, i) ← directive s.input
  return { s.push t with input := i }

def fetchDocumentMark (s : Scanner) (t : Token) : Read Scanner := do
  let s ← s.finish
  return s.accept 3 t

/-- An opening bracket may start a key. -/
def fetchOpening (s : Scanner) (t : Token) : Read Scanner := do
  let s ← s.saveCandidate
  return { s.accept 1 t with
    -- The candidate of this level waits for the closing bracket.
    candidate := none
    outerCandidates := s.candidate :: s.outerCandidates
    keyAllowed := true }

def fetchClosing (s : Scanner) (t : Token) : Read Scanner := do
  let s ← s.dropCandidate
  let (candidate, outer) :=
    match s.outerCandidates with
    | [] => (s.candidate, [])
    | k :: ks => (k, ks)
  return { s.accept 1 t with
    candidate := candidate
    outerCandidates := outer
    keyAllowed := false }

def fetchComma (s : Scanner) : Read Scanner := do
  let s ← s.dropCandidate
  return { s.accept 1 .comma with keyAllowed := true }

/-- A dash. Outside brackets it may start a block sequence. -/
def fetchEntry (s : Scanner) : Read Scanner := do
  if !s.flow && !s.keyAllowed then throw .misplacedEntry
  let s ← (s.roll s.input.column s.tokens.size .blockSequence).dropCandidate
  return { s.accept 1 .entry with keyAllowed := true }

/-- A question mark. Outside brackets it may start a block mapping. -/
def fetchKey (s : Scanner) : Read Scanner := do
  if !s.flow && !s.keyAllowed then throw .misplacedKey
  let s ← (s.roll s.input.column s.tokens.size .blockMapping).dropCandidate
  return { s.accept 1 .key with keyAllowed := !s.flow }

/-- A colon. It makes a key of the candidate, if there is one. -/
def fetchValue (s : Scanner) : Read Scanner := do
  match s.candidate with
  | some k =>
    let s := { s with tokens := s.tokens.insertIdxIfInBounds k.position .key, candidate := none }
    -- The mapping starts before its first key, and so before the token that just went in.
    let s := s.roll k.column k.position .blockMapping
    return { s.accept 1 .value with keyAllowed := false }
  | none =>
    if !s.flow && !s.keyAllowed then throw .misplacedValue
    let s := s.roll s.input.column s.tokens.size .blockMapping
    return { s.accept 1 .value with keyAllowed := !s.flow }

def fetchAnchor (s : Scanner) (token : List Char → Token) : Read Scanner := do
  let s ← s.saveCandidate
  let (name, i) ← anchorName s.input
  return { s.push (token name) with input := i, keyAllowed := false }

def fetchTag (s : Scanner) : Read Scanner := do
  let s ← s.saveCandidate
  let (t, i) ← tagToken s.flow s.input
  return { s.push t with input := i, keyAllowed := false }

def fetchBlockScalar (s : Scanner) (folded : Bool) : Read Scanner := do
  let s ← s.dropCandidate
  let (text, i) ← blockScalar folded s.indent s.input
  return { s.push (.scalar false text) with input := i, keyAllowed := true }

def fetchQuoted (s : Scanner) (single : Bool) : Read Scanner := do
  let s ← s.saveCandidate
  let (text, i) ← quotedScalar single s.input
  return { s.push (.scalar false text) with input := i, keyAllowed := false }

/-- A plain scalar. If it ends with a break, a key may start after it. -/
def fetchPlain (s : Scanner) : Read Scanner := do
  let s ← s.saveCandidate
  let (text, broken, i) ← plainScalar s.flow (s.indent + 1) s.input
  return { s.push (.scalar true text) with input := i, keyAllowed := broken }

/-- The characters that no plain scalar starts with; a dash, a question mark and a colon are
    the exceptions, if something follows them. -/
def isIndicator (c : Char) : Bool :=
  "-?:,[]#&*!|>'\x22%@\x60\x7b\x7d".toList.contains c

/-- The token that starts with `c`, which is no blank, and goes on with `r`. -/
def fetchAt (s : Scanner) (c : Char) (r : List Char) : Read Scanner :=
  let gap := atGap r
  if s.input.column = 0 && c = '%' then s.fetchDirective
  else if s.input.atDocumentMark then
    s.fetchDocumentMark (if c = '-' then .documentStart else .documentEnd)
  else if c = '[' then s.fetchOpening .flowSequence
  else if c = '\x7b' then s.fetchOpening .flowMapping
  else if c = ']' then s.fetchClosing .flowSequenceEnd
  else if c = '\x7d' then s.fetchClosing .flowMappingEnd
  else if c = ',' then s.fetchComma
  else if c = '-' && gap then s.fetchEntry
  else if c = '?' && (s.flow || gap) then s.fetchKey
  else if c = ':' && (s.flow || gap) then s.fetchValue
  else if c = '*' then s.fetchAnchor .alias
  else if c = '&' then s.fetchAnchor .anchor
  else if c = '!' then s.fetchTag
  else if c = '|' && !s.flow then s.fetchBlockScalar false
  else if c = '>' && !s.flow then s.fetchBlockScalar true
  else if c = '\x27' then s.fetchQuoted true
  else if c = '\x22' then s.fetchQuoted false
  else if !(isBlank c || isIndicator c) || c = '-' || c = '?' || c = ':' then s.fetchPlain
  else .error .noTokenStart

/-- Reads on to the next token. At the end of the text there is none. -/
def fetch (s : Scanner) : Read (Scanner × Bool) := do
  let s ← (s.skipToToken (s.input.left + 1)).dropStale
  let s := s.unroll s.input.column
  match s.input.rest with
  | [] => return (← s.finish, true)
  | c :: r => return (← s.fetchAt c r, false)

/-- Reads all tokens. Each of them takes at least one character. -/
def run : Nat → Scanner → Read Scanner
  | 0, s => .ok s
  | fuel + 1, s => do
    let (s, done) ← s.fetch
    if done then return s else run fuel s

end Scanner

/-- The tokens of a text. -/
def Token.ofText (cs : List Char) : Read (List Token) := do
  if !cs.all isAllowed then throw .forbiddenCharacter
  let s ← (Scanner.start cs).run (cs.length + 1)
  return s.tokens.toList

end Yaml

end DocTree
