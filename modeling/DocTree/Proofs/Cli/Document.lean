import Mathlib
import DocTree.Cli.Run
import DocTree.Proofs.Reach
import DocTree.Proofs.Forest.DeepWrite
import DocTree.Proofs.Forest.Wildcard

/-!
# Commands on One Document

A command opens its document in a forest of its own, through a view of the root that has
seen all of it. So a path leads where the document alone says, except that a path with
wildcards leads out of the document, to a new one with the values found. The root view
keeps showing the document, whatever else is made in the forest.

Every command is then a function of the document, the path and its options, and what it
prints is the document, a slot of it, or an error.

## Main definitions

* `Path.IsDetached`: the path resolves to a document of its own.
* `Vantage.lead?`: the place that any other path leads to.

## Theorems

* `finds_resolve`, `resolve_of_isDetached`: where a path leads.
* `value_openDocument`, `resolve_openDocument`: what the root view shows, and where it leads.
* `changed_write`: what is printed after a write.
* `run_get`, `run_append`, `run_set`: what the commands print.
-/

namespace DocTree

/-- A path with wildcards, other than the lone wildcard, resolves to a document of its own. -/
def Path.IsDetached (text separator : String) : Prop :=
  text ≠ wildcard ∧ (parse text separator).isWildcard = true

instance (text separator : String) : Decidable (Path.IsDetached text separator) :=
  inferInstanceAs (Decidable (_ ∧ _))

/-- The place that a path leads to, if it is not detached. -/
def Vantage.lead? (t : Vantage) (text separator : String) : Option (List Key) :=
  if text = "" then none
  else if text = Path.wildcard then if t.isContainer then some [] else none
  else t.walk? [] (Path.parse text separator).segments

namespace Forest

variable {t : Vantage} {d : DocumentId} {location : List Key}

/-! ## Where a path leads -/

theorem finds_resolve (f : Forest) (hf : f.Sound) (n : ViewId)
    (hn : f.Stands t d location n []) (text separator : String)
    (h : ¬ Path.IsDetached text separator) :
    Finds t d location (f.resolve n text separator) (t.lead? text separator) := by
  -- The empty path leads nowhere, the lone wildcard to the view itself, and every other path is
  -- walked.
  by_cases hempty : text = ""
  · rw [Vantage.lead?, if_pos hempty, resolve, if_pos (String.isEmpty_iff.mpr hempty)]
    exact .none
  · by_cases hwildcard : text = Path.wildcard
    · have hkind : f.isContainer n = t.isContainer := congrArg Vantage.isContainer hn.vantage
      rw [Vantage.lead?, if_neg hempty, if_pos hwildcard, resolve,
        if_neg (by rwa [String.isEmpty_iff]), if_pos hwildcard, hkind]
      cases t.isContainer with
      | true => exact .some hn
      | false => exact .none
    · have hplain : (Path.parse text separator).isWildcard = false := by
        rw [Path.IsDetached, not_and, Bool.not_eq_true] at h
        exact h hwildcard
      rw [Vantage.lead?, if_neg hempty, if_neg hwildcard,
        resolve_of_not_isWildcard f n text separator hempty hwildcard hplain]
      exact (finds_walkSegments f hf n [] hn _).1

/-- A view that shows a document as it is reads its slot as it is. -/
theorem Stands.value_eq {f : Forest} {v u : Value} {m : ViewId} {place : List Key}
    (h : f.Stands (Vantage.ofValue v) d location m place) (hu : v.lookup place = some u) :
    f.value m = u ∧ f.isContainer m = u.isContainer := by
  have hsees := h.vantage
  rw [Vantage.below_ofValue v place u hu] at hsees
  exact ⟨congrArg Vantage.value hsees, congrArg Vantage.isContainer hsees⟩

/-- So if there is a container in the slot, the view holds it. -/
theorem Stands.holds {f : Forest} {v : Value} {m : ViewId} {place : List Key} {c : Entries Value}
    (h : f.Stands (Vantage.ofValue v) d location m place)
    (hc : v.lookup place = some (.container c)) :
    ∃ w, f.Holds m w c ∧ w.document = d ∧ w.location = location ++ place := by
  rcases h.view with ⟨w, hw, hplace⟩
  rcases h.value_eq hc with ⟨hvalue, hkind⟩
  refine ⟨w, ⟨hw, by rw [← isContainer_of_view? f m w hw, hkind]; rfl, ?_⟩, hplace⟩
  rw [value, slot?_of_view? f m w hw] at hvalue
  cases hslot : f.slotAt? w.document w.location with
  | none =>
      rw [hslot] at hvalue
      exact absurd hvalue (by simp)
  | some u =>
      rw [hslot, Option.getD_some] at hvalue
      rw [hvalue]

/-- A detached path leads to a container in a document that was not there before. -/
theorem resolve_of_isDetached (f : Forest) (n : ViewId) (text separator : String)
    (h : Path.IsDetached text separator) :
    ∃ m g w c, f.resolve n text separator = (some m, g) ∧ g.Holds m w c ∧
      f.documents.size ≤ w.document := by
  have hempty : text ≠ "" := by
    rintro rfl
    have hpath := h.2
    simp [Path.isWildcard, Path.segments_empty, Path.wildcard] at hpath
  -- What is found is put into a new document, behind those there are.
  let found := f.survivors n (Path.parse text separator)
  let vs := found.1.map fun e => found.2.value e.2
  have hresolve : f.resolve n text separator
      = (some (found.2.walk (.sequence vs)).1, (found.2.walk (.sequence vs)).2) := by
    simp only [resolve, String.isEmpty_iff, hempty, h.1, if_false, h.2, if_true]
    rfl
  rcases (stands_walk found.2 (.sequence vs)).holds (c := Entries.ofValues vs) rfl with
    ⟨w, hholds, hdocument, _⟩
  refine ⟨_, _, w, _, hresolve, hholds, ?_⟩
  rw [hdocument]
  exact (documents_looks f _ (looks_survivors f n _)).1

end Forest

namespace Cli

open Forest

/-! ## Files -/

/-- The name of the standard input has no extension. -/
theorem extension?_of_isInput (file : String) (h : isInput file = true) :
    extension? file = none := by
  rw [isInput, Bool.and_eq_true, decide_eq_true_eq, decide_eq_true_eq] at h
  rw [extension?, h.2]
  decide

theorem load_of_json (sources : Sources) (file text : String) (v : Value)
    (hfile : extension? file = some "json".toList) (htext : sources.file file = .ok text)
    (h : Value.ofJson text = .ok v) : load sources file = .ok v := by
  have hinput : ¬ isInput file = true := fun hinput => by
    rw [extension?_of_isInput file hinput] at hfile
    exact absurd hfile (by simp)
  have hyaml : ¬ isYaml file = true := by
    rw [isYaml, hfile]
    decide
  rw [load, if_neg hinput, htext]
  simp only [Except.mapError, Bind.bind, Except.bind, if_neg hyaml, h]

/-! ## Outcomes -/

theorem outcome_of_ok (i : Invocation) (sources : Sources) (text : String)
    (h : i.run sources = .ok text) : i.outcome sources = ⟨0, text, ""⟩ := by
  rw [Invocation.outcome, h]

theorem outcome_of_error (i : Invocation) (sources : Sources) (e : RunError)
    (h : i.run sources = .error e) :
    i.outcome sources = ⟨1, "", "Error: " ++ e.message ++ "\n"⟩ := by
  rw [Invocation.outcome, h]

/-! ## Opening a document -/

theorem sound_openDocument (v : Value) : (openDocument v).2.Sound :=
  sound_looks _ _ (looks_walk _ v) (Reachable.sound ⟨[], [], rfl⟩)

theorem stands_openDocument (v : Value) :
    (openDocument v).2.Stands (Vantage.ofValue v) 0 [] (openDocument v).1 [] :=
  stands_walk _ v

theorem documents_openDocument (v : Value) : (openDocument v).2.documents = #[v] := rfl

/-- The root view keeps showing the first document. -/
theorem value_openDocument (v : Value) (g : Forest) (h : (openDocument v).2.Extends g) :
    g.value (openDocument v).1 = g.documents[0]?.getD .null := by
  rcases (stands_openDocument v).view with ⟨w, hw, hdocument, hlocation⟩
  rcases h _ w hw with ⟨w', hw', hagrees⟩
  rw [value, slot?_of_view? g _ w' hw', hagrees.document, hagrees.location, hdocument, hlocation,
    slotAt?]
  cases g.documents[0]? <;> rfl

/-- Where the document alone says that a path leads, there the path leads, to a view of the slot. -/
theorem resolve_openDocument (doc : Value) (text separator : String)
    (h : ¬ Path.IsDetached text separator) :
    ((Vantage.ofValue doc).lead? text separator = none ∧
      ∃ g, (openDocument doc).2.resolve (openDocument doc).1 text separator = (none, g)) ∨
    ∃ place m g u, (Vantage.ofValue doc).lead? text separator = some place ∧
      (openDocument doc).2.resolve (openDocument doc).1 text separator = (some m, g) ∧
      Looks (openDocument doc).2 g ∧ g.Stands (Vantage.ofValue doc) 0 [] m place ∧
      doc.lookup place = some u := by
  have hfinds := finds_resolve _ (sound_openDocument doc) _ (stands_openDocument doc) text
    separator h
  have hlooks := looks_resolve (openDocument doc).2 (openDocument doc).1 text separator
  cases hr : (openDocument doc).2.resolve (openDocument doc).1 text separator with
  | mk r g =>
      rw [hr] at hfinds hlooks
      -- The view leads where its vantage does, which is the document.
      cases hlead : (Vantage.ofValue doc).lead? text separator with
      | none =>
          rw [hlead] at hfinds
          cases hfinds
          exact Or.inl ⟨rfl, g, rfl⟩
      | some place =>
          rw [hlead] at hfinds
          cases hfinds with
          | some hm =>
              rcases Option.isSome_iff_exists.mp hm.slot with ⟨u, hu⟩
              exact Or.inr ⟨place, _, g, u, rfl, rfl, hlooks, hm, hu⟩

/-! ## Commands -/

/-- A path that is not detached is looked up in the document. -/
theorem run_get (options : Options) (file path : String) (sources : Sources)
    (h : ¬ Path.IsDetached path options.separator) :
    (Invocation.mk options (.get file path)).run sources
      = (load sources file).bind fun doc =>
          match ((Vantage.ofValue doc).lead? path options.separator).bind doc.lookup with
          | some u => .ok (emit options u)
          | none => .error (.noMatch path) := by
  -- A document that cannot be read fails the command before the path is looked at.
  cases hload : load sources file with
  | error e => simp only [Invocation.run, hload, Bind.bind, Except.bind]
  | ok doc =>
      simp only [Invocation.run, hload, Bind.bind, Except.bind, resolve]
      rcases resolve_openDocument doc path options.separator h with
        ⟨hlead, g, hr⟩ | ⟨place, m, g, u, hlead, hr, _, hm, hu⟩
      · simp only [hlead, hr, Option.bind_none]
      · simp only [hlead, hr, Option.bind_some, hu, (hm.value_eq hu).1, pure, Except.pure]

/-- What is printed after a container has been written through a view. -/
theorem changed_write (options : Options) (doc : Value) (error : RunError) (g : Forest)
    (hg : Looks (openDocument doc).2 g) (n : ViewId) (w : View) (c d : Entries Value)
    (h : g.Holds n w c) :
    changed options (openDocument doc).1 error (some (), (g.write n (.container d)).reload n)
      = .ok (emit options (if w.document = 0 then
          (doc.replace? w.location (.container d)).getD doc else doc)) := by
  have hfirst : g.documents[0]? = some doc :=
    (documents_looks _ g hg).2 0 (by rw [documents_openDocument]; exact Nat.one_pos)
  have hwritten : (openDocument doc).2.Extends (g.write n (.container d)) :=
    (extends_looks _ g hg).trans (extends_move _ _ (.write g n w c d h))
  have hextends : (openDocument doc).2.Extends ((g.write n (.container d)).reload n) :=
    hwritten.trans (extends_move _ _ (.look _ _ (.load _ n)))
  rcases documents_write g n w c (.container d) h with ⟨old, new, hold, hnew, hdocs⟩
  rw [changed, value_openDocument doc _ hextends, reload_eq_update, documents_update, hdocs]
  refine congrArg (fun v => Except.ok (emit options v)) ?_
  by_cases hw : w.document = 0
  · -- The write was in the document of the command.
    rw [hw, hfirst, Option.some.injEq] at hold
    rw [if_pos hw, if_pos hw, hold, hnew]
    rfl
  · rw [if_neg hw, if_neg hw, hfirst]
    rfl

/-- What is printed after values have been appended through a view of a slot. -/
theorem changed_append (options : Options) (doc : Value) (error : RunError) (g : Forest)
    (hg : Looks (openDocument doc).2 g) (m : ViewId) (place : List Key) (u : Value)
    (hm : g.Stands (Vantage.ofValue doc) 0 [] m place) (hu : doc.lookup place = some u)
    (vs : List Value) :
    changed options (openDocument doc).1 error (g.append m vs)
      = match u.entries? with
        | some c =>
            .ok (emit options
              ((doc.replace? place (.container (vs.foldl Entries.push c))).getD doc))
        | none => .error error := by
  -- Only a container can be appended to. For anything else the command fails.
  cases u with
  | container c =>
      rcases hm.holds hu with ⟨w, hholds, hdocument, hlocation⟩
      have hc : g.container? m = some c := (container?_eq_some_iff g m c).mpr ⟨w, hholds⟩
      rw [append, Mutation.mutate_of_container? g m c hc,
        changed_write options doc error g hg m w c _ hholds, if_pos hdocument, hlocation]
      rfl
  | _ =>
      have hnone : g.container? m = none := by
        rw [container?, (hm.value_eq hu).2]
        rfl
      simp only [append, mutate, hnone, changed, Value.entries?]

/-- A path that is not detached leads to the container that is appended to. -/
theorem run_append (options : Options) (file path : String) (values : List String)
    (sources : Sources) (h : ¬ Path.IsDetached path options.separator) :
    (Invocation.mk options (.append file path values)).run sources
      = (load sources file).bind fun doc =>
          match (Vantage.ofValue doc).lead? path options.separator with
          | some location =>
              match (doc.lookup location).bind Value.entries? with
              | some c =>
                  .ok (emit options ((doc.replace? location
                    (.container ((values.map argumentValue).foldl Entries.push c))).getD doc))
              | none => .error (.notContainer path)
          | none => .error (.noMatch path) := by
  cases hload : load sources file with
  | error e => simp only [Invocation.run, hload, Bind.bind, Except.bind]
  | ok doc =>
      simp only [Invocation.run, hload, Bind.bind, Except.bind, resolve]
      rcases resolve_openDocument doc path options.separator h with
        ⟨hlead, g, hr⟩ | ⟨place, m, g, u, hlead, hr, hlooks, hm, hu⟩
      · simp only [hlead, hr]
      · simp only [hlead, hr, hu, Option.bind_some]
        exact changed_append options doc _ g hlooks m place u hm hu _

/-- A path without empty segments is written below the document, if that is a container. -/
theorem run_set (options : Options) (file path value : String) (sources : Sources)
    (c : Entries Value) (hload : load sources file = .ok (.container c))
    (hpath : ∀ s ∈ (Path.parse path options.separator).segments, s ≠ "") :
    (Invocation.mk options (.set file path value)).run sources
      = .ok (emit options (.container
          (c.setPath ((Path.parse path options.separator).segments.map Key.parse)
            (argumentValue value)))) := by
  have hstands := stands_openDocument (.container c)
  have hkind : (openDocument (.container c)).2.isContainer (openDocument (.container c)).1 = true :=
    (hstands.value_eq rfl).2
  rcases hstands.holds rfl with ⟨w, hholds, hdocument, hlocation⟩
  simp only [Invocation.run, hload, Bind.bind, Except.bind, hkind, Bool.not_true,
    Bool.false_eq_true, if_false]
  rw [set_of_holds _ _ w c hholds path options.separator _ hpath,
    changed_write options (.container c) _ _ .refl _ w c _ hholds, if_pos hdocument, hlocation]
  rfl

end Cli

end DocTree
