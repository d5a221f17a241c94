import Mathlib
import DocTree.Proofs.RoundTrip
import DocTree.Proofs.Cli.Document

/-!
# Appending from the Command Line

A successful `append` prints the document with the values at the end of the container that
the path leads to, unless the path is detached. The values then go to the document that was
made for the path, and what is printed is the other one, unchanged.

## Theorems

* `run_append_of_isDetached`: a detached path changes nothing that is printed.
* `append_outcome`: what an `append` prints when it succeeds.
* `append_through_wildcard`: a value that is lost.
-/

namespace DocTree

namespace Cli

open Forest

/-- The values are added to a document that is not printed. -/
theorem run_append_of_isDetached (options : Options) (file path : String) (values : List String)
    (sources : Sources) (h : Path.IsDetached path options.separator) :
    (Invocation.mk options (.append file path values)).run sources
      = (load sources file).bind fun doc => .ok (emit options doc) := by
  cases hload : load sources file with
  | error e => simp only [Invocation.run, hload, Bind.bind, Except.bind]
  | ok doc =>
      have hlooks := looks_resolve (openDocument doc).2 (openDocument doc).1 path options.separator
      rcases resolve_of_isDetached (openDocument doc).2 (openDocument doc).1 path
        options.separator h with ⟨m, g, w, c, hr, hholds, hdocument⟩
      rw [hr] at hlooks
      have hother : w.document ≠ 0 := by
        rw [documents_openDocument] at hdocument
        exact Nat.ne_of_gt hdocument
      have hc : g.container? m = some c := (container?_eq_some_iff g m c).mpr ⟨w, hholds⟩
      simp only [Invocation.run, hload, Bind.bind, Except.bind, resolve, hr]
      rw [append, Mutation.mutate_of_container? g m c hc,
        changed_write options doc _ g hlooks m w c _ hholds, if_neg hother]

/-- An `append` fails and prints nothing, or it succeeds and prints the document. If the path is
    not detached, the values then stand in it at the end of the container that the path leads to.
    If the path is detached, they do not. -/
theorem append_outcome (options : Options) (file path : String) (values : List String)
    (sources : Sources) :
    let outcome := (Invocation.mk options (.append file path values)).outcome sources
    outcome.code = 1 ∧ outcome.output = "" ∨
      outcome.code = 0 ∧ outcome.errors = "" ∧ ∃ doc, load sources file = .ok doc ∧
        (Path.IsDetached path options.separator → outcome.output = emit options doc) ∧
        (¬ Path.IsDetached path options.separator → ∃ location c doc',
          (Vantage.ofValue doc).lead? path options.separator = some location ∧
          doc.lookup location = some (.container c) ∧
          doc.replace? location (.container ((values.map argumentValue).foldl Entries.push c))
            = some doc' ∧
          (∀ q, Value.Incomparable location q → doc'.lookup q = doc.lookup q) ∧
          outcome.output = emit options doc') := by
  intro outcome
  -- An error of any kind gives the code 1 and no output.
  have hfailed : ∀ e, (Invocation.mk options (.append file path values)).run sources = .error e →
      outcome.code = 1 ∧ outcome.output = "" := by
    intro e he
    rw [show outcome = _ from outcome_of_error _ sources e he]
    exact ⟨rfl, rfl⟩
  by_cases h : Path.IsDetached path options.separator
  · have hrun := run_append_of_isDetached options file path values sources h
    cases hload : load sources file with
    | error e => exact Or.inl (hfailed e (by rw [hrun, hload]; rfl))
    | ok doc =>
        rw [hload] at hrun
        rw [show outcome = _ from outcome_of_ok _ sources _ hrun]
        exact Or.inr ⟨rfl, rfl, doc, rfl, fun _ => rfl, fun hplain => absurd h hplain⟩
  · have hrun := run_append options file path values sources h
    cases hload : load sources file with
    | error e => exact Or.inl (hfailed e (by rw [hrun, hload]; rfl))
    | ok doc =>
        rw [hload] at hrun
        simp only [Except.bind] at hrun
        -- The path may lead nowhere, or to a value that is no container.
        cases hlead : (Vantage.ofValue doc).lead? path options.separator with
        | none => exact Or.inl (hfailed (.noMatch path) (by rw [hrun, hlead]))
        | some location =>
            simp only [hlead] at hrun
            cases hentries : (doc.lookup location).bind Value.entries? with
            | none => exact Or.inl (hfailed (.notContainer path) (by rw [hrun, hentries]))
            | some c =>
                rcases Option.bind_eq_some_iff.mp hentries with ⟨u, hlookup, hu⟩
                rw [Value.eq_container_of_entries? u c hu] at hlookup
                -- There is a slot at the location, so the document can be written there.
                rcases Value.exists_replace? doc _
                  (.container ((values.map argumentValue).foldl Entries.push c)) location hlookup
                  with ⟨doc', hreplace⟩
                simp only [hentries, hreplace, Option.getD_some] at hrun
                rw [show outcome = _ from outcome_of_ok _ sources _ hrun]
                exact Or.inr ⟨rfl, rfl, doc, rfl, fun hdetached => absurd hdetached h, fun _ =>
                  ⟨location, c, doc', hlead, hlookup, hreplace,
                    fun q => Value.lookup_replace?_incomparable doc _ doc' location q hreplace,
                    rfl⟩⟩

/-- The 9 is appended to the copy of the `[1]` that the wildcard has led to. The document is printed
    without it, and with success. -/
theorem append_through_wildcard :
    let options : Options := ⟨"/", .json, false⟩
    let sources : Sources := ⟨fun _ => .ok "\x7b\"a\":\x7b\"b\":[1]\x7d\x7d", .ok ""⟩
    let outcome := (Invocation.mk options (.append "d.json" "*/b" ["9"])).outcome sources
    outcome.code = 0 ∧
      ¬ ∃ doc location c doc', load sources "d.json" = .ok doc ∧
        doc.lookup location = some (.container c) ∧
        doc.replace? location (.container ((["9"].map argumentValue).foldl Entries.push c))
          = some doc' ∧
        outcome.output = emit options doc' := by
  intro options sources outcome
  let doc : Value :=
    .container [(.name "a", .container [(.name "b", .container [(.index 0, .int 1)])])]
  have hload : load sources "d.json" = .ok doc := by
    have htext : doc.toJson false = "\x7b\"a\":\x7b\"b\":[1]\x7d\x7d" := by decide +kernel
    have hread := Value.ofJson_toJson doc false
      (by simp [doc, Value.Distinct, Value.EntriesDistinct, Entries.Distinct, Entries.keys])
      (by decide) (by decide +kernel)
    rw [htext] at hread
    exact load_of_json sources "d.json" _ doc (by decide) rfl hread
  -- By the path the run is known: it prints the document that it has loaded.
  have houtcome : outcome = ⟨0, emit options doc, ""⟩ := by
    refine outcome_of_ok _ sources _ ?_
    rw [run_append_of_isDetached options "d.json" "*/b" ["9"] sources (by decide), hload]
    rfl
  rw [houtcome]
  refine ⟨rfl, ?_⟩
  rintro ⟨doc', location, c, after, hdoc, hlookup, hreplace, houtput⟩
  rw [hload, Except.ok.injEq] at hdoc
  subst hdoc
  -- The document has three containers, and with the 9 in any of them it is printed differently.
  have honly : ∀ (key k : Key) (u : Value) (rest : List Key) (x : Value),
      (Value.container [(key, u)]).lookup (k :: rest) = some x →
        k = key ∧ u.lookup rest = some x := by
    intro key k u rest x hx
    rw [Value.lookup, Value.child?_container, Entries.get?] at hx
    by_cases hk : key = k
    · rw [if_pos hk, Option.bind_some] at hx
      exact ⟨hk.symm, hx⟩
    · rw [if_neg hk] at hx
      exact absurd hx (by simp [Entries.get?])
  have hlocation : location ∈ [[], [.name "a"], [.name "a", .name "b"]] := by
    -- A location of a container is a prefix of the one that leads to the list.
    rcases location with _ | ⟨k, _ | ⟨l, _ | ⟨m, rest⟩⟩⟩
    · simp
    · rcases honly _ _ _ _ _ hlookup with ⟨rfl, _⟩
      simp
    · rcases honly _ _ _ _ _ hlookup with ⟨rfl, hinner⟩
      rcases honly _ _ _ _ _ hinner with ⟨rfl, _⟩
      simp
    · rcases honly _ _ _ _ _ hlookup with ⟨rfl, hinner⟩
      rcases honly _ _ _ _ _ hinner with ⟨rfl, hitem⟩
      rcases honly _ _ _ _ _ hitem with ⟨rfl, hscalar⟩
      -- The item is no container, and nothing is below it.
      cases rest with
      | nil => exact absurd hscalar (by simp [Value.lookup])
      | cons k rest => exact absurd hscalar (by simp [Value.lookup, Value.child?, Value.entries?])
  -- The three documents with the 9 in them are printed, and compared with what was printed.
  have hprinted : ∀ p ∈ [[], [.name "a"], [.name "a", .name "b"]],
      ((doc.lookup p).bind Value.entries?).bind (fun e =>
        (doc.replace? p (.container ((["9"].map argumentValue).foldl Entries.push e))).map
          (emit options)) ≠ some (emit options doc) := by
    decide +kernel
  refine hprinted location hlocation ?_
  rw [hlookup, Option.bind_some, Value.entries?, Option.bind_some, hreplace, Option.map_some]
  exact congrArg some houtput.symm

end Cli

end DocTree
