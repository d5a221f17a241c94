import DocTree.View.Cursor

/-!
# Resolving Paths

A path without wildcards is walked segment by segment from a view. Each segment but
the last has to lead to a container.

A path with wildcards is resolved through its *candidates*, concrete paths of the same
number of segments. To find them the segments are walked along a frontier. At a
wildcard the candidates are the keys of the frontier, and the frontier moves on to a
document of its own that flattens all its children into one container, so that a
second wildcard draws on the keys of all of them. Any other segment is its own only
candidate. Every combination is then tried: it survives if it still splits into as
many segments as the path and resolves. What the path resolves to is a new document, a
sequence of the values found.

## Main definitions

* `Forest.get`: one segment.
* `Forest.walkSegments`: segment after segment.
* `Forest.candidates`, `Forest.survivors`: concrete paths, and those that resolve.
* `Forest.resolve`, `Forest.matchingPaths`: any path.
-/

namespace DocTree

namespace Forest

/-- Resolves one segment: the child under its key, and then what its selector names,
    relative to that child. -/
def get (f : Forest) (n : ViewId) (raw : String) : Option ViewId × Forest :=
  let segment := Segment.parse raw
  match f.child n segment.key with
  | (some c, f) =>
    match segment.selector with
    | some s => f.select c s
    | none => (some c, f)
  | (none, f) => (none, f)

/-- Resolves segments one after the other. -/
def walkSegments (f : Forest) (n : ViewId) : List String → Option ViewId × Forest
  | [] => (none, f)
  | [raw] => f.get n raw
  | raw :: rest =>
    match f.get n raw with
    | (some c, f) => if f.isContainer c then f.walkSegments c rest else (none, f)
    | (none, f) => (none, f)

/-! ## Wildcards -/

/-- Adds to a flattened level the entries of a child, or the child itself if it is a
    scalar. Values under index keys are pushed, names overwrite. -/
def flattenInto (level : Entries Value) : Value → Entries Value
  | .container c =>
    c.foldl (fun level e =>
      if e.1.isIndex then Entries.push level e.2 else Entries.insert level e.1 e.2) level
  | v => Entries.push level v

/-- All children of a view flattened into one container. -/
def flatten (f : Forest) (n : ViewId) : Entries Value × Forest :=
  let (children, f) := f.items n
  ((children.map fun e => f.value e.2).foldl flattenInto [], f)

/-- What each segment may stand for, along a frontier that is lost when a segment leads
    nowhere. A wildcard without a container at the frontier stands for nothing. -/
def choices (f : Forest) (frontier : Option ViewId) : List String → List (List String) × Forest
  | [] => ([], f)
  | raw :: rest =>
    if raw = Path.wildcard then
      match frontier.filter f.isContainer with
      | some n =>
        let keys := f.keys n
        let (level, f) := f.flatten n
        let (next, f) := f.walk (.container level)
        let (more, f) := f.choices (some next) rest
        (keys.map Key.text :: more, f)
      | none =>
        let (more, f) := f.choices frontier rest
        ([] :: more, f)
    else
      let (next, f) :=
        match frontier with
        | some n => f.get n raw
        | none => (none, f)
      let (more, f) := f.choices next rest
      ([raw] :: more, f)

/-- Every way to take one option at each place, the first place varying slowest. -/
def combinations {α : Type} : List (List α) → List (List α)
  | [] => [[]]
  | options :: rest => options.flatMap fun a => (combinations rest).map (a :: ·)

/-- The concrete paths a path with wildcards may stand for. -/
def candidates (f : Forest) (n : ViewId) (path : Path) : List String × Forest :=
  let (options, f) := f.choices (some n) path.segments
  ((combinations options).map fun segments => Path.join segments path.separator, f)

/-- The view a candidate leads to, if the candidate has as many segments as the path. -/
def tryCandidate (f : Forest) (n : ViewId) (path : Path) (candidate : String) :
    Option ViewId × Forest :=
  -- A key that holds the separator comes apart when the candidate is read again.
  let segments := (Path.parse candidate path.separator).segments
  if segments.length = path.length then f.walkSegments n segments else (none, f)

/-- The candidates that resolve, with the views they lead to. -/
def survivors (f : Forest) (n : ViewId) (path : Path) : List (String × ViewId) × Forest :=
  let (texts, f) := f.candidates n path
  let (found, f) := thread (fun f candidate =>
    let (c, f) := f.tryCandidate n path candidate
    (c.map (candidate, ·), f)) f texts
  (found.filterMap id, f)

/-- A new document with the values of all matches, as a sequence. -/
def expand (f : Forest) (n : ViewId) (path : Path) : ViewId × Forest :=
  let (found, f) := f.survivors n path
  f.walk (.sequence (found.map fun e => f.value e.2))

/-! ## Any path -/

/-- The view a path leads to. The empty path leads nowhere, and a lone wildcard to the
    view itself, if that is a container. -/
def resolve (f : Forest) (n : ViewId) (text separator : String) : Option ViewId × Forest :=
  if text.isEmpty then (none, f)
  else if text = Path.wildcard then (if f.isContainer n then some n else none, f)
  else
    let path := Path.parse text separator
    if path.isWildcard then
      let (m, f) := f.expand n path
      (some m, f)
    else f.walkSegments n path.segments

/-- The concrete paths that a path resolves through. A path without wildcards, and a lone
    wildcard, resolve through themselves. -/
def matchingPaths (f : Forest) (n : ViewId) (text separator : String) :
    List String × Forest :=
  if text.isEmpty then ([], f)
  else
    let path := Path.parse text separator
    if text = Path.wildcard ∨ ¬path.isWildcard then
      match f.resolve n text separator with
      | (some _, f) => ([text], f)
      | (none, f) => ([], f)
    else
      let (found, f) := f.survivors n path
      (found.map Prod.fst, f)

end Forest

end DocTree
