import DocTree.Path.Basic

/-!
# Command Line Arguments

    [options] COMMAND [options] ARGUMENTS

An option may stand before the command or after it; after it counts more. At either of
the two levels it may be given once. A value follows its option as the next argument
or attached: `--separator=.`, `-s.`, `-s=.`. Single letters may be run together. A lone
dash is no option, and after two dashes nothing is.

Arguments are read from left to right, and the first one that asks for help or is wrong
decides.

## Main definitions

* `Options`, `Command`, `Invocation`: what is to be done.
* `Answer`: an invocation, or what else the arguments ask for.
* `Answer.ofArguments`: reading the arguments.
-/

namespace DocTree

namespace Cli

/-- The formats a result is written in. -/
inductive Format where
  | json
  | yaml
deriving DecidableEq

def Format.ofName? : String → Option Format
  | "json" => some json
  | "yaml" => some yaml
  | _ => none

/-- The settings that every command knows. -/
structure Options where
  separator : String
  format : Format
  pretty : Bool
deriving DecidableEq

/-- What is to be done, to which files. -/
inductive Command where
  /-- Print the value at a path. -/
  | get (file path : String)
  /-- List the keys of a container. -/
  | keys (file : String) (path : Option String)
  /-- List the paths a path stands for. -/
  | paths (file path : String)
  /-- Write a value at a path. -/
  | set (file path value : String)
  /-- Add values to a container. -/
  | append (file path : String) (values : List String)
  /-- Merge two documents. -/
  | merge (left right : String)
deriving DecidableEq

/-- A command with its settings. -/
structure Invocation where
  options : Options
  command : Command
deriving DecidableEq

/-- What the arguments ask for. -/
inductive Answer where
  | run (invocation : Invocation)
  | help
  | version
  | misuse
deriving DecidableEq

/-- A reason to read no further. -/
inductive Stop where
  | help
  | version
  | misuse
deriving DecidableEq

abbrev Read := Except Stop

/-! ## Options -/

/-- The options given at one level. -/
structure Given where
  separator : Option String
  format : Option Format
  pretty : Bool
  verbose : Bool

namespace Given

def none : Given :=
  ⟨.none, .none, false, false⟩

/-- The settings of two levels, the inner one before the outer one. -/
def settings (outer inner : Given) : Options where
  separator := ((inner.separator).or outer.separator).getD Path.defaultSeparator
  format := ((inner.format).or outer.format).getD .json
  pretty := inner.pretty || outer.pretty

def setSeparator (g : Given) (s : String) : Read Given :=
  if g.separator.isSome then .error .misuse else .ok { g with separator := some s }

def setFormat (g : Given) (s : String) : Read Given :=
  match g.format, Format.ofName? s with
  | .none, some f => .ok { g with format := some f }
  | _, _ => .error .misuse

def setPretty (g : Given) : Read Given :=
  if g.pretty then .error .misuse else .ok { g with pretty := true }

def setVerbose (g : Given) : Read Given :=
  if g.verbose then .error .misuse else .ok { g with verbose := true }

end Given

/-- An argument that can only be an option, or two dashes. -/
def isOption (arg : String) : Bool :=
  match arg.toList with
  | '-' :: _ :: _ => true
  | _ => false

/-- The value of an option, attached or the next argument, and the arguments after it. The
    next argument has to be no option. -/
def optionValue (attached : Option String) (rest : List String) : Read (String × List String) :=
  match attached, rest with
  | some s, rest => .ok (s, rest)
  | none, s :: rest => if isOption s then .error .misuse else .ok (s, rest)
  | none, [] => .error .misuse

/-- An option by its long name. Only before the command there is one for the version. -/
def longOption (top : Bool) (g : Given) (name : String) (attached : Option String)
    (rest : List String) : Read (Given × List String) := do
  match name with
  | "separator" =>
    let (s, rest) ← optionValue attached rest
    return (← g.setSeparator s, rest)
  | "format" =>
    let (s, rest) ← optionValue attached rest
    return (← g.setFormat s, rest)
  | _ =>
    if attached.isSome then throw .misuse
    match name with
    | "pretty" => return (← g.setPretty, rest)
    | "verbose" => return (← g.setVerbose, rest)
    | "help" => throw .help
    | "version" => throw (if top then .version else .misuse)
    | _ => throw .misuse

/-- Options by their letters. The first that takes a value takes the other letters for it, less
    an equals sign, if there are any. -/
def letterOptions (top : Bool) (g : Given) (rest : List String) :
    List Char → Read (Given × List String)
  | [] => .ok (g, rest)
  | c :: cs => do
    let attached :=
      match cs with
      | [] => none
      | '=' :: ds => some (String.ofList ds)
      | ds => some (String.ofList ds)
    match c with
    | 's' =>
      let (s, rest) ← optionValue attached rest
      return (← g.setSeparator s, rest)
    | 'f' =>
      let (s, rest) ← optionValue attached rest
      return (← g.setFormat s, rest)
    | 'v' => letterOptions top (← g.setVerbose) rest cs
    | 'h' => throw .help
    | 'V' => throw (if top then .version else .misuse)
    | _ => throw .misuse

/-- An argument that is an option, with the arguments it takes. -/
def readOption (top : Bool) (g : Given) (arg : String) (rest : List String) :
    Read (Given × List String) :=
  match arg.toList with
  | '-' :: '-' :: cs =>
    let name := String.ofList (cs.takeWhile (· ≠ '='))
    match cs.dropWhile (· ≠ '=') with
    | _ :: value => longOption top g name (some (String.ofList value)) rest
    | [] => longOption top g name none rest
  | _ :: cs => letterOptions top g rest cs
  | [] => .error .misuse

/-! ## Commands -/

/-- The most arguments a command takes; there is no bound for `append`. -/
def capacity? : String → Option (Option Nat)
  | "get" => some (some 2)
  | "keys" => some (some 2)
  | "paths" => some (some 2)
  | "set" => some (some 3)
  | "append" => some none
  | "merge" => some (some 2)
  | _ => none

/-- How many of the first arguments of a command are names of files. -/
def fileCount (name : String) : Nat :=
  if name = "merge" then 2 else 1

/-- The command of a name and its arguments. -/
def Command.ofArguments? (name : String) (args : List String) : Option Command :=
  match name, args with
  | "get", [f, p] => some (get f p)
  | "keys", [f] => some (keys f none)
  | "keys", [f, p] => some (keys f (some p))
  | "paths", [f, p] => some (paths f p)
  | "set", [f, p, v] => some (set f p v)
  | "append", f :: p :: v :: vs => some (append f p (v :: vs))
  | "merge", [f, g] => some (merge f g)
  | _, _ => none

/-- The arguments after the name of a command: those that are no options, and the options. The
    first `files` that are no options may not be empty. -/
def commandArguments (files : Nat) (capacity : Option Nat) :
    Nat → Bool → Given → List String → List String → Read (List String × Given)
  | 0, _, g, positional, _ => .ok (positional, g)
  | _, _, g, positional, [] => .ok (positional, g)
  | fuel + 1, plain, g, positional, arg :: rest =>
    -- From two dashes on no argument is an option.
    if !plain && arg = "--" then commandArguments files capacity fuel true g positional rest
    else if !plain && isOption arg then do
      let (g, rest) ← readOption false g arg rest
      commandArguments files capacity fuel plain g positional rest
    else if capacity.any (· ≤ positional.length) then .error .misuse
    else if positional.length < files && arg.isEmpty then .error .misuse
    else commandArguments files capacity fuel plain g (positional ++ [arg]) rest

/-- The arguments from the name of the command on. Help can be asked for as a command, about
    at most one command. -/
def readCommand (outer : Given) (name : String) (rest : List String) : Read Invocation :=
  if name = "help" then
    match rest with
    | [] => .error .help
    | [about] =>
      .error (if about = "help" || (capacity? about).isSome then .help else .misuse)
    | _ => .error .misuse
  else
    match capacity? name with
    | none => .error .misuse
    | some capacity => do
      let (args, inner) ← commandArguments (fileCount name) capacity (rest.length + 1) false
        .none [] rest
      match Command.ofArguments? name args with
      | some command => return ⟨outer.settings inner, command⟩
      | none => throw .misuse

/-- The arguments up to the name of the command and from there on. -/
def readAll : Nat → Given → List String → Read Invocation
  | 0, _, _ => .error .misuse
  | _, _, [] => .error .misuse
  | fuel + 1, g, arg :: rest =>
    if arg = "--" then .error .misuse
    else if isOption arg then do
      let (g, rest) ← readOption true g arg rest
      readAll fuel g rest
    else readCommand g arg rest

/-- What the arguments ask for. -/
def Answer.ofArguments (args : List String) : Answer :=
  match readAll (args.length + 1) .none args with
  | .ok invocation => .run invocation
  | .error .help => .help
  | .error .version => .version
  | .error .misuse => .misuse

end Cli

end DocTree
