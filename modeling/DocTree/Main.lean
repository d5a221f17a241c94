import DocTree.Cli.Run

/-!
# The Program

Reads the files that the command names, runs the command, and prints its outcome.

## Main definitions

* `main`: the program.
-/

namespace DocTree

namespace Cli

/-- The text of bytes that were read. -/
def decodeBytes (bytes : ByteArray) : Except FileError String :=
  match String.fromUTF8? bytes with
  | some text => .ok text
  | none => .error .notText

/-- The number of an error of the system, which comes with either sign. -/
def errorNumber (code : UInt32) : Nat :=
  code.toInt32.toInt.natAbs

/-- The reason an attempt to read failed for. -/
def fileError (e : IO.Error) : FileError :=
  match e with
  | .noFileOrDirectory _ _ _ => .missing
  | .permissionDenied _ _ _ => .denied
  | .inappropriateType _ code _ => if errorNumber code = 20 then .notDirectory else .directory
  | .invalidArgument _ code _ =>
    if errorNumber code = 36 then .nameTooLong else .other (toString e)
  | _ => .other (toString e)

def readFile (file : String) : IO (Except FileError String) := do
  try
    return decodeBytes (← IO.FS.readBinFile file)
  catch e =>
    return .error (fileError e)

/-- All of the standard input, if a command reads it. -/
def readInput (needed : Bool) : IO (Except FileError String) := do
  if needed then
    return decodeBytes (← (← IO.getStdin).readBinToEnd)
  else
    return .ok ""

/-- The sources of the files of these names. -/
def readSources (files : List String) : IO Sources := do
  let texts ← (files.filter (!isInput ·)).mapM fun file => do
    return (file, ← readFile file)
  let input ← readInput (files.any isInput)
  return ⟨fun file => (texts.lookup file).getD (.error .missing), input⟩

end Cli

end DocTree

open DocTree.Cli in
/-- The program. -/
def main (args : List String) : IO UInt32 := do
  let answer := Answer.ofArguments args
  let files :=
    match answer with
    | .run i => i.command.files
    | _ => []
  let outcome := answer.outcome (← readSources files)
  IO.print outcome.output
  IO.eprint outcome.errors
  return outcome.code
