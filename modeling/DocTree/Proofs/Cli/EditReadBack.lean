import Mathlib
import DocTree.Proofs.Decoding
import DocTree.Proofs.RoundTrip
import DocTree.Proofs.Cli.Document
import DocTree.Proofs.Cli.Emit

/-!
# Editing a File and Reading It Back

A document that has been edited with `set`, and saved as it was printed, is loaded as the
edited document. So `get` finds the new value under the path that was set, and what it found
elsewhere it finds again, or again does not find.

What is printed is JSON, in which a container is written as a list or as an object, with
the texts of its keys. It is loaded as it was because its keys are those that decoding
makes: they were decoded themselves, or they come from the segments of the path, which
are read as keys in the same way.

## Main definitions

* `Path.NamesKeys`, `Path.IsPlain`: a path of which each segment is a key.

## Theorems

* `run_get_of_namesKeys`: such a path is looked up in the document.
* `load_emit`: a document that was printed is loaded as it was.
* `set_then_get`: an edit, read back.
-/

namespace DocTree

/-- Each segment of the path is a key. -/
structure Path.NamesKeys (text separator : String) : Prop where
  nonempty : text ≠ ""
  notAll : text ≠ wildcard
  plain : ∀ s ∈ (parse text separator).segments, s ≠ wildcard ∧ (Segment.parse s).clause = none

/-- Each segment of the path is a key, and none of them is empty. -/
def Path.IsPlain (text separator : String) : Prop :=
  ∀ s ∈ (parse text separator).segments,
    s ≠ "" ∧ s ≠ wildcard ∧ (Segment.parse s).clause = none

/-- A path without empty segments is neither empty nor the bare wildcard. -/
theorem Path.IsPlain.namesKeys {text separator : String} (h : IsPlain text separator) :
    NamesKeys text separator := by
  have hne := ne_of_segments text separator fun s hs => ⟨(h s hs).1, (h s hs).2.1⟩
  exact ⟨hne.1, hne.2, fun s hs => (h s hs).2⟩

/-- The location that the keys of a path name. -/
def Path.location (text separator : String) : List Key :=
  (parse text separator).segments.map Key.parse

/-- Different segments are different keys, so locations part where the paths do. -/
theorem Path.incomparable_location (p q separator : String)
    (hpq : ¬ (parse p separator).segments <+: (parse q separator).segments)
    (hqp : ¬ (parse q separator).segments <+: (parse p separator).segments) :
    Value.Incomparable (location p separator) (location q separator) := by
  have hback : ∀ segments more : List String,
      segments.map Key.parse <+: more.map Key.parse → segments <+: more := by
    intro segments more h
    -- A key that a text denotes still has that text.
    have htexts := h.map Key.text
    simpa only [List.map_map, Function.comp_def, Key.text_parse, List.map_id'] using htexts
  exact ⟨fun h => hpq (hback _ _ h), fun h => hqp (hback _ _ h)⟩

namespace Path.NamesKeys

variable {text separator : String}

/-- A path of keys has no wildcard to be detached by. -/
theorem not_isDetached (h : NamesKeys text separator) : ¬ IsDetached text separator := by
  rintro ⟨_, hwildcard⟩
  rw [isWildcard, List.any_eq_true] at hwildcard
  rcases hwildcard with ⟨s, hs, hs'⟩
  exact (h.plain s hs).1 (by simpa using hs')

/-- Such a path leads to its location, if there is a slot. -/
theorem bind_lead? (h : NamesKeys text separator) (doc : Value) :
    ((Vantage.ofValue doc).lead? text separator).bind doc.lookup
      = doc.lookup (location text separator) := by
  -- Of plain segments the walk goes from slot to slot, as a lookup does.
  have hreach := Vantage.reach?_of_plain [] doc (parse text separator).segments
    (fun s hs => (h.plain s hs).2) rfl
  rw [List.nil_append] at hreach
  have hwalk : (Vantage.ofValue doc).walk? [] (parse text separator).segments
      = (Vantage.ofValue doc).reach? [] (parse text separator).segments := by
    cases hsegments : (parse text separator).segments with
    | nil => exact absurd hsegments (segments_ne_nil text separator)
    | cons raw rest => exact Vantage.walk?_eq_reach? (Vantage.coherent_ofValue doc) [] raw rest
  rw [Vantage.lead?, if_neg h.nonempty, if_neg h.notAll, hwalk, hreach, location]
  -- Where there is no slot both sides come to nothing.
  by_cases hslot : (doc.lookup ((parse text separator).segments.map Key.parse)).isSome = true
  · rw [if_pos hslot, Option.bind_some]
  · rw [if_neg hslot, Option.bind_none, Option.not_isSome_iff_eq_none.mp hslot]

end Path.NamesKeys

namespace Cli

/-- A path of keys is looked up in the document. -/
theorem run_get_of_namesKeys (options : Options) (file path : String) (sources : Sources)
    (h : Path.NamesKeys path options.separator) :
    (Invocation.mk options (.get file path)).run sources
      = (load sources file).bind fun doc =>
          match doc.lookup (Path.location path options.separator) with
          | some u => .ok (emit options u)
          | none => .error (.noMatch path) := by
  -- Such a path is asked of the document itself and not of a detached copy.
  rw [run_get options file path sources h.not_isDetached]
  refine congrArg _ (funext fun doc => ?_)
  have hlead := h.bind_lead? doc
  cases hlookup : doc.lookup (Path.location path options.separator) with
  | none => simp only [hlead, hlookup]
  | some u => simp only [hlead, hlookup]

/-! ## Well-keyed documents -/

/-- Another error is still an error, so a success was one before. -/
theorem mapError_eq_ok {ε ε' α : Type} {f : ε → ε'} {x : Except ε α} {a : α}
    (h : x.mapError f = .ok a) : x = .ok a := by
  cases x with
  | error e => exact absurd h (by simp [Except.mapError])
  | ok b => exact congrArg Except.ok (Except.ok.inj h)

/-- Whatever is loaded has been decoded, in one format or in the other. -/
theorem wellKeyed_of_load (sources : Sources) (file : String) (v : Value)
    (h : load sources file = .ok v) (hfits : v.Fits) : v.WellKeyed := by
  unfold load at h
  cases htext : (if isInput file = true then sources.input else sources.file file).mapError
      (RunError.read file) with
  | error e =>
      rw [htext] at h
      exact absurd h (by simp [Bind.bind, Except.bind])
  | ok text =>
      rw [htext] at h
      have hread := mapError_eq_ok h
      -- The name of the file decides about the format.
      split at hread
      · exact Value.wellKeyed_ofYaml text v hread hfits
      · exact Value.wellKeyed_ofJson text v hread hfits

/-- An argument is decoded JSON, or else a string. -/
theorem wellKeyed_argumentValue (arg : String) (hfits : (argumentValue arg).Fits) :
    (argumentValue arg).WellKeyed := by
  unfold argumentValue at hfits ⊢
  split
  · rename_i v hv
    rw [hv] at hfits
    exact Value.wellKeyed_ofJson arg v hv hfits
  · exact Value.keyedBy_of_scalar _ rfl

/-! ## Editing and reading back -/

/-- A document that was printed as JSON and saved is loaded as it was. -/
theorem load_emit (options : Options) (hformat : options.format = .json) (v : Value)
    (hv : v.WellKeyed) (hdepth : v.depth ≤ Json.maxNesting)
    (hfloats : ∀ x ∈ v.floats, Json.ReadsBack x) (sources : Sources) (saved : String)
    (hsaved : extension? saved = some "json".toList)
    (htext : sources.file saved = .ok (emit options v)) : load sources saved = .ok v :=
  load_of_json sources saved _ v hsaved htext
    (ofJson_emit options v v hformat
      (Value.ofJson_toJson_of_wellKeyed v options.pretty hv hdepth hfloats))

/-- Setting a path of keys in a document that is a container succeeds. In the document that was
    printed and saved, the path leads to the value, and every path of keys that parts from it leads
    where it led before. The document and the value have no more entries than a memory can hold, so
    that every index is one that can be read back. -/
theorem set_then_get (options : Options) (hformat : options.format = .json) (sources : Sources)
    (file path value : String) (c : Entries Value)
    (hload : load sources file = .ok (.container c)) (hc : (Value.container c).Fits)
    (hvalue : (argumentValue value).Fits) (hpath : Path.IsPlain path options.separator)
    (hdepth : (Value.container (c.setPath (Path.location path options.separator)
      (argumentValue value))).depth ≤ Json.maxNesting)
    (hfloats : ∀ x ∈ (Value.container (c.setPath (Path.location path options.separator)
      (argumentValue value))).floats, Json.ReadsBack x) :
    ∃ text, (Invocation.mk options (.set file path value)).outcome sources = ⟨0, text, ""⟩ ∧
      ∀ (after : Sources) (saved : String), extension? saved = some "json".toList →
        after.file saved = .ok text →
        ∀ asked : Options, asked.separator = options.separator →
          (asked.format = .json →
            (Invocation.mk asked (.get saved path)).outcome after
              = ⟨0, (argumentValue value).toJson asked.pretty ++ "\n", ""⟩) ∧
          ∀ other, Path.NamesKeys other options.separator →
            ¬ (Path.parse path options.separator).segments
              <+: (Path.parse other options.separator).segments →
            ¬ (Path.parse other options.separator).segments
              <+: (Path.parse path options.separator).segments →
            (Invocation.mk asked (.get saved other)).outcome after
              = (Invocation.mk asked (.get file other)).outcome sources := by
  -- A path has at least one segment, so something is written below the root.
  have hlocation : Path.location path options.separator ≠ [] := by
    simpa [Path.location] using Path.segments_ne_nil path options.separator
  -- The document that is printed is well-keyed. That takes the bounds on what is loaded and on the
  -- value.
  have hkeyed := Value.keyedBy_setPath c (Path.location path options.separator) _
    (wellKeyed_of_load sources file _ hload hc)
    (fun key hkey => by
      rcases List.mem_map.mp hkey with ⟨s, _, rfl⟩
      exact Key.canonical_parse s)
    (wellKeyed_argumentValue value hvalue)
  refine ⟨_, outcome_of_ok _ sources _
    (run_set options file path value sources c hload fun s hs => (hpath s hs).1), ?_⟩
  -- From here on the text is that of a file, asked for with any options that split paths alike.
  intro after saved hsaved htext asked hasked
  -- JSON was printed, so the file holds the document that was written.
  have hagain := load_emit options hformat _ hkeyed hdepth hfloats after saved hsaved htext
  refine ⟨fun hjson => ?_, fun other hother hpq hqp => ?_⟩
  · refine outcome_of_ok _ after _ ?_
    rw [run_get_of_namesKeys asked saved path after (by rw [hasked]; exact hpath.namesKeys), hagain,
      hasked]
    -- What is looked up where it was written is the value.
    simp only [Except.bind, Entries.lookup_setPath_self c _ _ hlocation]
    rw [emit_json asked _ hjson]
  · -- The other path parts from this one, and so do their locations.
    have hparts := Path.incomparable_location path other options.separator hpq hqp
    have hsame := Entries.lookup_setPath_incomparable c _ _ (argumentValue value) hparts
    -- Both runs look up the same location, in two documents that agree there.
    have hrun : (Invocation.mk asked (.get saved other)).run after
        = (Invocation.mk asked (.get file other)).run sources := by
      rw [run_get_of_namesKeys asked saved other after (by rwa [hasked]),
        run_get_of_namesKeys asked file other sources (by rwa [hasked]), hagain, hload, hasked]
      simp only [Except.bind, hsame]
    rw [Invocation.outcome, hrun, ← Invocation.outcome]

/-- The argument is no JSON, so it is the text itself. The document is written to where it had
    nothing, and the float in it is untouched. -/
theorem set_then_get_beside_float :
    let options : Options := ⟨"/", .json, true⟩
    let asked : Options := ⟨"/", .json, false⟩
    let sources : Sources := ⟨fun _ => .ok "\x7b\"a\":[1,0.5]\x7d", .ok ""⟩
    ∃ text, (Invocation.mk options (.set "d.json" "b/0" "new")).outcome sources = ⟨0, text, ""⟩ ∧
      (Invocation.mk asked (.get "s.json" "b/0")).outcome ⟨fun _ => .ok text, .ok ""⟩
        = ⟨0, "\"new\"\n", ""⟩ ∧
      (Invocation.mk asked (.get "s.json" "a/1")).outcome ⟨fun _ => .ok text, .ok ""⟩
        = (Invocation.mk asked (.get "d.json" "a/1")).outcome sources := by
  intro options asked sources
  let c : Entries Value :=
    [(.name "a", .container [(.index 0, .int 1), (.index 1, .float ⟨0x3FE0000000000000⟩)])]
  -- The text of the file is what the document is printed as, so it is loaded as that document.
  have hload : load sources "d.json" = .ok (.container c) := by
    have hread := Value.ofJson_toJson (.container c) false
      (by simp [c, Value.Distinct, Value.EntriesDistinct, Entries.Distinct, Entries.keys])
      (by decide) (by decide +kernel)
    rw [show (Value.container c).toJson false = "\x7b\"a\":[1,0.5]\x7d" by decide +kernel] at hread
    exact load_of_json sources "d.json" _ _ (by decide) rfl hread
  rcases set_then_get options rfl sources "d.json" "b/0" "new" c hload (by decide)
    (by decide +kernel) (by unfold Path.IsPlain; decide) (by decide +kernel) (by decide +kernel)
    with ⟨text, hset, hread⟩
  have hback := hread ⟨fun _ => .ok text, .ok ""⟩ "s.json" (by decide) rfl asked rfl
  refine ⟨text, hset, ?_, hback.2 "a/1" ⟨by decide, by decide, by decide⟩ (by decide) (by decide)⟩
  rw [hback.1 rfl]
  rw [show (argumentValue "new").toJson asked.pretty ++ "\n" = "\"new\"\n" by decide +kernel]

end Cli

end DocTree
