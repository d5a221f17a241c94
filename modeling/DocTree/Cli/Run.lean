import DocTree.Blank
import DocTree.Cli.Arguments
import DocTree.Cli.Quoted
import DocTree.Codec
import DocTree.View.Mutate
import DocTree.View.Resolve

/-!
# Running a Command

A command loads one document or two, works on the first through a view of its root, and
prints a result. The file name `-` is the standard input, which is JSON and can be read
once; a file is YAML if its extension says so, JSON otherwise. A value on the command
line is JSON, and any text that is not JSON is a string.

Files are given as a function, so that a run is a function as well: from arguments and
files to an exit code and two texts.

## Main definitions

* `Sources`: where documents come from.
* `RunError`: why a command fails.
* `Invocation.run`: the text a command prints.
* `Outcome.ofArguments`: the whole program.
-/

namespace DocTree

namespace Cli

/-! ## Files -/

/-- Why a file cannot be read. -/
inductive FileError where
  | missing
  | directory
  | notDirectory
  | denied
  | nameTooLong
  | notText
  | other (message : String)
deriving DecidableEq

def FileError.message : FileError → String
  | missing => "No such file or directory (os error 2)"
  | directory => "Is a directory (os error 21)"
  | notDirectory => "Not a directory (os error 20)"
  | denied => "Permission denied (os error 13)"
  | nameTooLong => "File name too long (os error 36)"
  | notText => "stream did not contain valid UTF-8"
  | other m => m

/-- Where documents come from. -/
structure Sources where
  file : String → Except FileError String
  input : Except FileError String

/-- The components of a file name, without those that mean the same directory. -/
def components (file : String) : List (List Char) :=
  (Path.splitChars ['/'] 0 file.toList).filter fun c => c ≠ [] && c ≠ ['.']

/-- The name stands for the standard input: it is a dash. Like behind the name of a directory,
    slashes and single dots behind it make no difference. -/
def isInput (file : String) : Bool :=
  file.toList.head? = some '-' && components file = [['-']]

/-- The extension of a file name: what follows the last dot of the last component, unless that
    dot is its first character. -/
def extension? (file : String) : Option (List Char) :=
  ((components file).getLast?.filter (· ≠ ['.', '.'])).bind fun name =>
    let reversed := name.reverse
    match reversed.dropWhile (· ≠ '.') with
    -- The dot, and at least one character before it.
    | _ :: _ :: _ => some (reversed.takeWhile (· ≠ '.')).reverse
    | _ => none

def isYaml (file : String) : Bool :=
  (extension? file).any fun e => e = "yaml".toList || e = "yml".toList

/-! ## Errors -/

/-- Why a command fails. -/
inductive RunError where
  | read (file : String) (error : FileError)
  | decode (file : String) (error : DecodeError)
  | noMatch (path : String)
  | notContainer (name : String)
  | emptySegment (path : String)
deriving DecidableEq

def RunError.message : RunError → String
  | read file e => "failed to read " ++ Quoted.quote file ++ ": " ++ e.message
  | decode file e => "failed to parse " ++ Quoted.quote file ++ ": " ++ e.message
  | noMatch path => "no match for path '" ++ path ++ "'"
  | notContainer name => "'" ++ name ++ "' is not a container"
  | emptySegment path => "invalid path '" ++ path ++ "': empty segment"

/-! ## Input and output -/

/-- The value of a document. -/
def load (sources : Sources) (file : String) : Except RunError Value := do
  let text ← ((if isInput file then sources.input else sources.file file).mapError
    (.read file))
  (if isYaml file then Value.ofYaml text else Value.ofJson text).mapError (.decode file)

/-- The sources after a document has been loaded: what there was to read from the standard
    input is gone if the document was it. -/
def Sources.after (sources : Sources) (file : String) : Sources :=
  if isInput file then { sources with input := .ok "" } else sources

/-- The value of an argument. -/
def argumentValue (arg : String) : Value :=
  match Value.ofJson arg with
  | .ok v => v
  | .error _ => .string arg

/-- The text of a value in the format asked for. -/
def encode (options : Options) (v : Value) : String :=
  match options.format with
  | .json => v.toJson options.pretty
  | .yaml => v.toYaml

/-- A line without the blanks at its end. -/
def emit (options : Options) (v : Value) : String :=
  String.ofList (Blank.trimEnd (encode options v).toList ++ ['\n'])

def lines (texts : List String) : String :=
  String.join (texts.map (· ++ "\n"))

/-! ## Commands -/

/-- The view a path leads to. -/
def resolve (options : Options) (f : Forest) (root : ViewId) (path : String) :
    Except RunError (ViewId × Forest) :=
  match f.resolve root path options.separator with
  | (some n, f) => .ok (n, f)
  | (none, _) => .error (.noMatch path)

/-- The document of a forest after a change, or the error if there was none. -/
def changed (options : Options) (root : ViewId) (error : RunError)
    (result : Option Unit × Forest) : Except RunError String :=
  match result with
  | (some _, f) => .ok (emit options (f.value root))
  | (none, _) => .error error

/-- A document in a forest of its own, and a view of all of it. -/
def openDocument (v : Value) : ViewId × Forest :=
  (Forest.ofDocuments []).walk v

/-- The text that a command prints. -/
def Invocation.run (i : Invocation) (sources : Sources) : Except RunError String := do
  let options := i.options
  match i.command with
  | .get file path =>
    let (root, f) := openDocument (← load sources file)
    let (n, f) ← resolve options f root path
    return emit options (f.value n)
  | .keys file path =>
    let (root, f) := openDocument (← load sources file)
    let (n, f) ←
      match path with
      | some path => resolve options f root path
      | none => .ok (root, f)
    if f.isContainer n then return lines ((f.keys n).map Key.text)
    else throw (.notContainer (f.absolutePath n options.separator))
  | .paths file path =>
    let (root, f) := openDocument (← load sources file)
    return lines (f.matchingPaths root path options.separator).1
  | .set file path value =>
    let (root, f) := openDocument (← load sources file)
    if !f.isContainer root then throw (.notContainer file)
    changed options root (.emptySegment path)
      (f.set root path (argumentValue value) options.separator)
  | .append file path values =>
    let (root, f) := openDocument (← load sources file)
    let (n, f) ← resolve options f root path
    changed options root (.notContainer path) (f.append n (values.map argumentValue))
  | .merge left right =>
    let (root, f) := openDocument (← load sources left)
    let v ← load (sources.after left) right
    changed options root (.notContainer left) (f.merge root v)

/-! ## The program -/

/-- An exit code and what is printed. -/
structure Outcome where
  code : UInt32
  output : String
  errors : String

def usage : String :=
  "Usage: twalk [OPTIONS] <COMMAND>\n"

def help : String :=
  "Query and edit nested JSON/YAML documents with path expressions\n\n" ++ usage ++ "\n" ++
  "Commands:\n" ++
  "  get <FILE> <PATH>                Print the value a path resolves to\n" ++
  "  keys <FILE> [PATH]               List the keys of the document or of a container in it\n" ++
  "  paths <FILE> <PATH>              List the concrete paths a query matches\n" ++
  "  set <FILE> <PATH> <VALUE>        Write a value at a path and print the document\n" ++
  "  append <FILE> <PATH> <VALUES>... Append values to a container and print the document\n" ++
  "  merge <LHS> <RHS>                Merge two documents and print the result\n" ++
  "  help [COMMAND]                   Print this message\n\n" ++
  "Options:\n" ++
  "  -s, --separator <SEPARATOR>  Path segment separator [default: /]\n" ++
  "  -f, --format <FORMAT>        Output format [default: json] [possible values: json, yaml]\n" ++
  "      --pretty                 Indent JSON output\n" ++
  "  -v, --verbose                Log engine activity to stderr\n" ++
  "  -h, --help                   Print help\n" ++
  "  -V, --version                Print version\n"

/-- The name and version of the program. -/
def version : String :=
  "twalk 0.1.0\n"

/-- The outcome of a command. Nothing is printed by one that fails. -/
def Invocation.outcome (i : Invocation) (sources : Sources) : Outcome :=
  match i.run sources with
  | .ok text => ⟨0, text, ""⟩
  | .error e => ⟨1, "", "Error: " ++ e.message ++ "\n"⟩

/-- The outcome of what the arguments ask for. -/
def Answer.outcome (sources : Sources) : Answer → Outcome
  | run i => i.outcome sources
  | help => ⟨0, Cli.help, ""⟩
  | version => ⟨0, Cli.version, ""⟩
  | misuse => ⟨2, "", "error: invalid arguments\n\n" ++ usage⟩

/-- The names of the files a command reads, in that order. -/
def Command.files : Command → List String
  | get file _ => [file]
  | keys file _ => [file]
  | paths file _ => [file]
  | set file _ _ => [file]
  | append file _ _ => [file]
  | merge left right => [left, right]

end Cli

end DocTree
