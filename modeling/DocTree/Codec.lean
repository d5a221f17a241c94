import DocTree.Json.Reader
import DocTree.Json.Writer
import DocTree.Yaml.Reader
import DocTree.Yaml.Writer

/-!
# Values as Text

Reading and writing values in the two document formats. What a text says is decoded by
the same rules in both, and values are written from the same trees.

## Main definitions

* `DecodeError`: a text that is not of its format, or that no value stands for.
* `Value.ofJson`, `Value.toJson`: JSON.
* `Value.ofYaml`, `Value.toYaml`: YAML.
-/

namespace DocTree

/-- Why a text has no value. -/
inductive DecodeError where
  | json (error : Json.SyntaxError)
  | yaml (cause : Yaml.Cause)
deriving DecidableEq

/-- The message of an error. -/
def DecodeError.message : DecodeError → String
  | json e => "invalid JSON: " ++ e.message
  | yaml c => "invalid YAML: " ++ c.text

namespace Value

/-- The value of a JSON text. Every tree has one. -/
def ofJson (text : String) : Except DecodeError Value :=
  match Json.parse text with
  | .ok t => .ok ((ofDatum? t.toDatum).get (isSome_ofDatum?_toDatum t))
  | .error e => .error (.json e)

/-- The value of a YAML text. -/
def ofYaml (text : String) : Except DecodeError Value :=
  match Yaml.parse text with
  | .ok d =>
    match ofDatum? d with
    | some v => .ok v
    | none => .error (.yaml .unfit)
  | .error c => .error (.yaml c)

/-- The value of a JSON text by way of its normal form: the members of an object come in the
    order of their names. -/
def ofJsonNormalised (text : String) : Except DecodeError Value :=
  match Json.parse text with
  | .ok t => .ok (ofTree t.normalise)
  | .error e => .error (.json e)

/-- A value as JSON, on one line or indented. -/
def toJson (v : Value) (pretty : Bool) : String :=
  Json.write pretty (Tree.ofValue v)

/-- A value as YAML. -/
def toYaml (v : Value) : String :=
  Yaml.write (Tree.ofValue v)

end Value

end DocTree
