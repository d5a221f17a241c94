import Mathlib
import DocTree.Cli.Run
import DocTree.Proofs.LastCharacter
import DocTree.Proofs.Json.Behind
import DocTree.Proofs.RoundTrip
import DocTree.Proofs.Yaml.LastLine

/-!
# Printed Documents

A document is printed as its text without the blanks at the end, and a line feed. A JSON
text has no blanks at its end, and is decoded with the line feed behind it as it is without.
A YAML text ends in a break, so that it is usually printed as it is. But blanks before that
break can belong to a string, and they are trimmed with it.

## Theorems

* `emit_json`, `emit_yaml_iff`: when the whole text is printed.
* `decode_emit`: what is printed is decoded as the text is.
* `decode_emit_of_line_feeds`: a string that is not printed whole.
-/

namespace DocTree

namespace Cli

open Blank

/-- A JSON text has no blank at its end, and so it is printed whole. -/
theorem emit_json (options : Options) (v : Value) (h : options.format = .json) :
    emit options v = v.toJson options.pretty ++ "\n" := by
  have hsolid : EndsSolid (v.toJson options.pretty).toList := by
    rw [Value.toJson, Json.write, String.toList_ofList]
    exact Json.endsSolid_writeAt options.pretty 0 _
  rw [emit, encode, h]
  dsimp only
  rw [trimEnd_of_endsSolid _ hsolid, String.ofList_append, String.ofList_toList]

/-- The line feed makes no difference to what a JSON text is decoded to. -/
theorem ofJson_emit (options : Options) (v w : Value) (h : options.format = .json)
    (hread : Value.ofJson (v.toJson options.pretty) = .ok w) :
    Value.ofJson (emit options v) = .ok w := by
  rcases (Value.ofJson_eq_ok_iff _ w).mp hread with ⟨t, hparse, ht⟩
  have hmore := Json.parse_append _ ['\n'] (by simp [Json.Blank, Json.isSpace]) t hparse
  rw [emit_json options v h]
  exact (Value.ofJson_eq_ok_iff _ w).mpr ⟨t, hmore, ht⟩

/-- A YAML text is printed as it is exactly if there is a single blank at its end. -/
theorem emit_yaml_iff (options : Options) (v : Value) (h : options.format = .yaml) :
    emit options v = v.toYaml ↔ v.KeepsEnd := by
  rcases v.toList_toYaml with ⟨front, d, b, htext, hkept⟩
  have hprinted : emit options v = v.toYaml
      ↔ trimEnd (front ++ [d] ++ [b]) ++ ['\n'] = front ++ [d] ++ [b] := by
    rw [emit, encode, h, ← htext, ← String.toList_inj, String.toList_ofList]
  rw [hprinted, ← hkept]
  constructor
  · intro heq
    rcases List.append_inj' heq rfl with ⟨htrim, hb⟩
    have hsolid := endsSolid_trimEnd (front ++ [d] ++ [b]) (by rw [htrim]; simp)
    rw [htrim, endsSolid_concat_iff] at hsolid
    exact ⟨(List.cons.inj hb).1.symm, hsolid⟩
  · rintro ⟨rfl, hd⟩
    rw [trimEnd_concat_of_isBlank _ '\n' (by decide),
      trimEnd_of_endsSolid _ ((endsSolid_concat_iff front d).mpr hd)]

/-- What is printed is decoded as the text of the value is. This holds of JSON, and of YAML for the
    values that keep their end: these are the ones of which the whole text is printed. -/
theorem decode_emit (options : Options) (v : Value) :
    (options.format = .json →
      emit options v = v.toJson options.pretty ++ "\n" ∧
      ∀ w, Value.ofJson (v.toJson options.pretty) = .ok w →
        Value.ofJson (emit options v) = .ok w) ∧
    (options.format = .yaml →
      (emit options v = v.toYaml ↔ v.KeepsEnd) ∧
      (v.KeepsEnd → ∀ w, Value.ofYaml v.toYaml = .ok w →
        Value.ofYaml (emit options v) = .ok w)) := by
  refine ⟨fun h => ⟨emit_json options v h, fun w => ofJson_emit options v w h⟩,
    fun h => ⟨emit_yaml_iff options v h, fun hkept w hread => ?_⟩⟩
  rwa [(emit_yaml_iff options v h).mpr hkept]

-- One line feed is the end of its line; a second one is a line of its own. What stands before the
-- last string makes no difference.
example : (Value.string "x\n").KeepsEnd ∧ ¬ (Value.string "x\n\n").KeepsEnd ∧
    (Value.sequence [.string "x\n\n", .null]).KeepsEnd := by decide

/-- The second line feed of a literal block is trimmed with the end of the text, and one line feed
    less comes back. -/
theorem decode_emit_of_line_feeds :
    let v : Value := .string "x\n\n"
    Value.ofYaml v.toYaml = .ok v ∧ Value.ofYaml (emit ⟨"/", .yaml, false⟩ v) ≠ .ok v := by
  intro v
  have hwhole : Yaml.parse v.toYaml = .ok (.string "x\n\n") := by decide +kernel
  have htrimmed : Yaml.parse (emit ⟨"/", .yaml, false⟩ v) = .ok (.string "x\n") := by
    decide +kernel
  rw [Value.ofYaml, Value.ofYaml, hwhole, htrimmed]
  exact ⟨rfl, by simp [v, Value.ofDatum?]⟩

end Cli

end DocTree
