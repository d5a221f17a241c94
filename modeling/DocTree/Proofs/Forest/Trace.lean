import Mathlib
import DocTree.Proofs.Forest.Run

/-!
# Moments of a Run

A program sees a forest between two actions. But an action may fetch many children, some
of them for its own use only, and each fetch may bring a remembered view up to date or
forget one. So what is said of a view over time is said of moments, and an action has many
of them.

An *event* is what happens at one moment, and the *trace* of an action lists its events in
order. A trace is computed along with what it is the trace of, and follows that definition
case by case: where a walk goes on from the view it has come to, so does its trace. That
nothing else happens in between is the point of `replay_trace`: the events of a run lead to
the forest that the run leads to.

The events of a query are fetches and new documents. Only four ways to navigate do more,
and what they do besides, they do to the view that they are asked of.

## Main definitions

* `Event`, `Forest.after`, `Forest.replay`: what happens at a moment.
* `Forest.Moment`, `Forest.Throughout`: what the forest is like then.
* `Navigation.trace`, `Action.trace`, `Forest.trace`: the events of an action, and of a run.
* `Event.Touches`, `Action.Touches`: what is done to a view itself.
* `Forest.Traces`: events of queries that lead from one forest to another.

## Theorems

* `moment_cons`, `throughout_cons`: the moments of events, one after the other.
* `traces_each`: the trace of a loop.
* `traces_get`, `traces_walkSegments`, `traces_survivors`: the traces of queries.
* `trace_cases`: a way to navigate is a query, but for one event at most.
* `trace_append`: the trace of a run that goes on.
* `replay_navigation`, `replay_act`, `replay_trace`: a trace leaves nothing out.
-/

namespace DocTree

/-- What happens at one moment of a run. -/
inductive Event where
  /-- Fetches the child of a view under a key. -/
  | fetch (view : ViewId) (key : Key)
  /-- Puts the cursor of a view somewhere. -/
  | point (view : ViewId) (cursor : Option Nat)
  /-- Loads a view again, whether it is stale or not. -/
  | load (view : ViewId)
  /-- Makes a document of a value, and a view of it. -/
  | walk (value : Value)
  /-- Makes another view of a document. -/
  | root (document : DocumentId)
  | mutate (view : ViewId) (mutation : Mutation)
  /-- Lets go of all views but these. -/
  | settle (held : List ViewId)

namespace Forest

/-- The forest after an event. -/
def after (f : Forest) : Event → Forest
  | .fetch n key => (f.child n key).2
  | .point n cursor => f.setCursor n cursor
  | .load n => f.reload n
  | .walk v => (f.walk v).2
  | .root d => (f.root d).2
  | .mutate n m => (m.perform f n).2
  | .settle held => f.settle held

/-- The forest after events, in order. -/
def replay (f : Forest) (events : List Event) : Forest :=
  events.foldl after f

/-- At some moment of these events, from `f` on, the forest is `g` and `e` is about to happen. -/
def Moment (f : Forest) (events : List Event) (g : Forest) (e : Event) : Prop :=
  ∃ before later, events = before ++ e :: later ∧ g = f.replay before

/-- This holds at every moment of these events, from `f` on. -/
def Throughout (f : Forest) (events : List Event) (P : Forest → Event → Prop) : Prop :=
  ∀ g e, f.Moment events g e → P g e

theorem replay_cons (f : Forest) (e : Event) (events : List Event) :
    f.replay (e :: events) = (f.after e).replay events := rfl

/-- Events in two parts: the second part starts where the first has led. -/
theorem replay_append (f : Forest) (events more : List Event) :
    f.replay (events ++ more) = (f.replay events).replay more :=
  List.foldl_append

/-- The moments of events are the first one, and those of the others after it. -/
theorem moment_cons (f g : Forest) (e e' : Event) (events : List Event) :
    f.Moment (e :: events) g e' ↔ (g = f ∧ e' = e) ∨ (f.after e).Moment events g e' := by
  constructor
  · rintro ⟨before, later, hevents, rfl⟩
    -- The moment is the first one exactly if no event lies before it.
    cases before with
    | nil =>
        rw [List.nil_append, List.cons.injEq] at hevents
        exact Or.inl ⟨rfl, hevents.1.symm⟩
    | cons e'' before =>
        rw [List.cons_append, List.cons.injEq] at hevents
        rw [hevents.1]
        exact Or.inr ⟨before, later, hevents.2, rfl⟩
  · rintro (⟨rfl, rfl⟩ | ⟨before, later, rfl, rfl⟩)
    · exact ⟨[], events, rfl, rfl⟩
    · exact ⟨e :: before, later, rfl, rfl⟩

theorem moment_head (f : Forest) (e : Event) (events : List Event) :
    f.Moment (e :: events) f e :=
  ⟨[], events, rfl, rfl⟩

theorem moment_tail (f g : Forest) (e e' : Event) (events : List Event)
    (h : (f.after e).Moment events g e') : f.Moment (e :: events) g e' :=
  (moment_cons f g e e' events).mpr (Or.inr h)

theorem not_moment_nil (f g : Forest) (e : Event) : ¬ f.Moment [] g e := by
  rintro ⟨before, later, hevents, _⟩
  exact absurd hevents.symm (List.append_ne_nil_of_right_ne_nil before (List.cons_ne_nil e later))

theorem throughout_nil (f : Forest) (P : Forest → Event → Prop) : f.Throughout [] P :=
  fun g e h => absurd h (not_moment_nil f g e)

/-- What holds throughout holds at the first moment and throughout the others. -/
theorem throughout_cons (f : Forest) (e : Event) (events : List Event)
    (P : Forest → Event → Prop) :
    f.Throughout (e :: events) P ↔ P f e ∧ (f.after e).Throughout events P := by
  constructor
  · intro h
    exact ⟨h f e (moment_head f e events), fun g e' hg => h g e' (moment_tail f g e e' events hg)⟩
  · rintro ⟨hfirst, hrest⟩ g e' hg
    -- A moment of all events is the first one or a moment of the others.
    rcases (moment_cons _ _ _ _ _).mp hg with ⟨rfl, rfl⟩ | hg
    · exact hfirst
    · exact hrest g e' hg

end Forest

/-! ## Traces of queries -/

namespace Trace

open Forest

/-- The trace of a loop, from the traces of its turns. -/
def each {α : Type} (turn : Forest → α → List Event) : Forest → List α → List Event
  | _, [] => []
  | f, a :: as => turn f a ++ each turn (f.replay (turn f a)) as

def items (f : Forest) (n : ViewId) : List Event :=
  each (fun _ key => [.fetch n key]) f (f.keys n)

def primitiveWithin : Nat → Forest → ViewId → List Event
  | 0, _, _ => []
  | depth + 1, f, n =>
    if f.isContainer n then
      let (children, g) := f.items n
      items f n ++ each (fun g e => primitiveWithin depth g e.2) g children
    else []

def childAt (f : Forest) (n : ViewId) (i : Nat) : List Event :=
  match (f.keys n)[i]? with
  | some key => [.fetch n key]
  | none => []

def moveTo (f : Forest) (n : ViewId) : Option Nat → List Event
  | some i => .point n (some i) :: childAt (f.setCursor n (some i)) n i
  | none => []

def last (f : Forest) (n : ViewId) : List Event :=
  match (f.snapshot? n).bind Snapshot.last with
  | some i => childAt f n i
  | none => []

def nthChild (f : Forest) (n : ViewId) (position : Int64) : List Event :=
  if 1 ≤ position.toInt then childAt f n (position.toInt - 1).toNat else []

def select (f : Forest) (n : ViewId) (s : Selector) : List Event :=
  if f.isContainer n then
    match s with
    | .parent => []
    | .nthChild i => nthChild f n i
    | .first => childAt f n 0
    | .last => last f n
  else []

def get (f : Forest) (n : ViewId) (raw : String) : List Event :=
  let segment := Segment.parse raw
  .fetch n segment.key ::
    match f.child n segment.key with
    | (some c, g) =>
      match segment.selector with
      | some s => select g c s
      | none => []
    | (none, _) => []

def walkSegments (f : Forest) (n : ViewId) : List String → List Event
  | [] => []
  | [raw] => get f n raw
  | raw :: rest =>
    get f n raw ++
      match f.get n raw with
      | (some c, g) => if g.isContainer c then walkSegments g c rest else []
      | (none, _) => []

def choices (f : Forest) (frontier : Option ViewId) : List String → List Event
  | [] => []
  | raw :: rest =>
    if raw = Path.wildcard then
      match frontier.filter f.isContainer with
      | some n =>
        let (level, g) := f.flatten n
        let (next, h) := g.walk (.container level)
        items f n ++ .walk (.container level) :: choices h (some next) rest
      | none => choices f frontier rest
    else
      match frontier with
      | some n =>
        let (next, g) := f.get n raw
        get f n raw ++ choices g next rest
      | none => choices f none rest

def tryCandidate (f : Forest) (n : ViewId) (path : Path) (candidate : String) : List Event :=
  let segments := (Path.parse candidate path.separator).segments
  if segments.length = path.length then walkSegments f n segments else []

def survivors (f : Forest) (n : ViewId) (path : Path) : List Event :=
  let (texts, g) := f.candidates n path
  choices f (some n) path.segments ++ each (fun g text => tryCandidate g n path text) g texts

def expand (f : Forest) (n : ViewId) (path : Path) : List Event :=
  let (found, g) := f.survivors n path
  survivors f n path ++ [.walk (.sequence (found.map fun e => g.value e.2))]

def resolve (f : Forest) (n : ViewId) (text separator : String) : List Event :=
  if text.isEmpty then []
  else if text = Path.wildcard then []
  else
    let path := Path.parse text separator
    if path.isWildcard then expand f n path else walkSegments f n path.segments

def matchingPaths (f : Forest) (n : ViewId) (text separator : String) : List Event :=
  if text.isEmpty then []
  else
    let path := Path.parse text separator
    if text = Path.wildcard ∨ ¬path.isWildcard then resolve f n text separator
    else survivors f n path

end Trace

/-- The events of navigating from a view. -/
def Navigation.trace (a : Navigation) (f : Forest) (n : ViewId) : List Event :=
  match a with
  | child key => [.fetch n key]
  | get segment => Trace.get f n segment
  | items => Trace.items f n
  | primitive => Trace.primitiveWithin ((f.value n).depth + 1) f n
  | next => Trace.moveTo f n ((f.snapshot? n).bind Snapshot.following?)
  | prev => Trace.moveTo f n ((f.snapshot? n).bind Snapshot.preceding?)
  | rewind => [.point n none]
  | first => Trace.childAt f n 0
  | last => Trace.last f n
  | nthChild position => Trace.nthChild f n position
  | select selector => Trace.select f n selector
  | reload => [.load n]
  | resolve path separator => Trace.resolve f n path separator
  | matchingPaths path separator => Trace.matchingPaths f n path separator

/-- The events of an action. One that is not possible has none. -/
def Action.trace (a : Action) (f : Forest) : List Event :=
  match a with
  | walk v => [.walk v]
  | root d => if d < f.documents.size then [.root d] else []
  | hold ns => [.settle (ns.filter f.isUsable)]
  | navigate n a => if f.isUsable n then a.trace f n else []
  | mutate n m => if f.isUsable n then [.mutate n m] else []

/-- The events of a run. -/
def Forest.trace (f : Forest) : List Action → List Event
  | [] => []
  | a :: actions => a.trace f ++ (f.act a).trace actions

/-! ## Touching a view -/

/-- The event is part of a query. -/
def Event.IsQuery : Event → Prop
  | fetch _ _ => True
  | walk _ => True
  | _ => False

/-- The event writes through this view, loads it, or moves its cursor. -/
def Event.Touches (n : ViewId) : Event → Prop
  | point m _ => m = n
  | load m => m = n
  | mutate m _ => m = n
  | _ => False

/-- The way to navigate does something to the view that it is asked of. -/
def Navigation.MovesOrLoads : Navigation → Prop
  | next => True
  | prev => True
  | rewind => True
  | reload => True
  | _ => False

/-- The action is asked of this view, and writes through it, loads it, or moves its cursor. -/
def Action.Touches (n : ViewId) : Action → Prop
  | navigate m a => m = n ∧ a.MovesOrLoads
  | mutate m _ => m = n
  | _ => False

/-- An event touches one view at most. -/
theorem Event.eq_of_touches (e : Event) (n m : ViewId) (hn : e.Touches n) (hm : e.Touches m) :
    n = m := by
  cases e with
  | point | load | mutate => exact hn.symm.trans hm
  | _ => exact absurd hn id

theorem Event.not_touches_of_isQuery (e : Event) (n : ViewId) (h : e.IsQuery) :
    ¬ e.Touches n := by
  -- Each kind of event is of one sort or of the other.
  cases e <;> simp_all [Event.IsQuery, Event.Touches]

namespace Forest

/-- These events lead from `f` to `g`, and all of them are part of queries. -/
structure Traces (f : Forest) (events : List Event) (g : Forest) : Prop where
  replay : f.replay events = g
  queries : ∀ e ∈ events, e.IsQuery

theorem traces_nil (f : Forest) : f.Traces [] f :=
  ⟨rfl, fun _ he => absurd he List.not_mem_nil⟩

theorem traces_fetch (f : Forest) (n : ViewId) (key : Key) :
    f.Traces [.fetch n key] (f.child n key).2 :=
  ⟨rfl, List.forall_mem_singleton.mpr trivial⟩

/-- A new document is part of a query: it shows in no view there was. -/
theorem traces_walk (f : Forest) (v : Value) : f.Traces [.walk v] (f.walk v).2 :=
  ⟨rfl, List.forall_mem_singleton.mpr trivial⟩

/-- Queries one after the other are a query. -/
theorem Traces.append {f g h : Forest} {events more : List Event} (hfg : f.Traces events g)
    (hgh : g.Traces more h) : f.Traces (events ++ more) h := by
  refine ⟨?_, fun e he => ?_⟩
  · rw [replay_append, hfg.replay, hgh.replay]
  · rcases List.mem_append.mp he with he | he
    · exact hfg.queries e he
    · exact hgh.queries e he

/-- A loop of queries is a query, if each turn is traced from the forest that it starts in. -/
theorem traces_each {α β : Type} (op : Forest → α → β × Forest)
    (turn : Forest → α → List Event) (h : ∀ (f : Forest) a, f.Traces (turn f a) (op f a).2)
    (f : Forest) (as : List α) : f.Traces (Trace.each turn f as) (thread op f as).2 := by
  -- On the turns that are left. The trace of the others starts where this turn ends.
  induction as generalizing f with
  | nil => exact traces_nil f
  | cons a as ih =>
      rw [Trace.each, (h f a).replay]
      exact (h f a).append (ih _)

theorem traces_items (f : Forest) (n : ViewId) : f.Traces (Trace.items f n) (f.items n).2 :=
  traces_each (fun g key => ((g.child n key).1.map (key, ·), (g.child n key).2)) _
    (fun g key => traces_fetch g n key) f (f.keys n)

/-- Rebuilding a value only fetches: the children of a view first, and then theirs. -/
theorem traces_primitiveWithin (depth : Nat) (f : Forest) (n : ViewId) :
    f.Traces (Trace.primitiveWithin depth f n) (primitiveWithin depth f n).2 := by
  -- On the depth, as the rebuilding goes: the turns of the loop are one level further down.
  induction depth generalizing f n with
  | zero => exact traces_nil f
  | succ depth ih =>
      simp only [Trace.primitiveWithin, primitiveWithin]
      split
      · refine (traces_items f n).append (traces_each _ _ ?_ _ _)
        intro g e
        exact ih g e.2
      · exact traces_nil f

/-- A position that the snapshot does not have is looked up without an event. -/
theorem traces_childAt (f : Forest) (n : ViewId) (i : Nat) :
    f.Traces (Trace.childAt f n i) (f.childAt n i).2 := by
  unfold Trace.childAt childAt
  cases (f.keys n)[i]? with
  | some key => exact traces_fetch f n key
  | none => exact traces_nil f

theorem traces_last (f : Forest) (n : ViewId) : f.Traces (Trace.last f n) (f.last n).2 := by
  unfold Trace.last last
  cases (f.snapshot? n).bind Snapshot.last with
  | some i => exact traces_childAt f n i
  | none => exact traces_nil f

theorem traces_nthChild (f : Forest) (n : ViewId) (position : Int64) :
    f.Traces (Trace.nthChild f n position) (f.nthChild n position).2 := by
  unfold Trace.nthChild nthChild
  split
  · exact traces_childAt f n _
  · exact traces_nil f

/-- What a selector names is found by one fetch, or by none. -/
theorem traces_select (f : Forest) (n : ViewId) (s : Selector) :
    f.Traces (Trace.select f n s) (f.select n s).2 := by
  unfold Trace.select select
  split
  · -- The parent is there already, everything else is a child at a position.
    cases s with
    | parent => exact traces_nil f
    | nthChild i => exact traces_nthChild f n i
    | first => exact traces_childAt f n 0
    | last => exact traces_last f n
  · exact traces_nil f

/-- A segment fetches the child for its key, and then whatever its clause names. -/
theorem traces_get (f : Forest) (n : ViewId) (raw : String) :
    f.Traces (Trace.get f n raw) (f.get n raw).2 := by
  have hfetch := traces_fetch f n (Segment.parse raw).key
  simp only [Trace.get, get]
  -- The clause is asked of the child, if there is one to ask.
  cases hchild : f.child n (Segment.parse raw).key with
  | mk r g =>
      rw [hchild] at hfetch
      cases r with
      | none => exact hfetch
      | some c =>
          cases (Segment.parse raw).selector with
          | none => exact hfetch
          | some s => exact hfetch.append (traces_select g c s)

/-- A walk is traced segment by segment, each from the view that the one before has found. -/
theorem traces_walkSegments (f : Forest) (n : ViewId) (segments : List String) :
    f.Traces (Trace.walkSegments f n segments) (f.walkSegments n segments).2 := by
  -- On the segments. The last one is not followed by a question for the kind of what it found.
  induction segments generalizing f n with
  | nil => exact traces_nil f
  | cons raw rest ih =>
      have hget := traces_get f n raw
      cases rest with
      | nil => exact hget
      | cons next rest =>
          -- The equations are those of a segment with others behind it.
          rw [Trace.walkSegments, walkSegments]
          · cases hfound : f.get n raw with
            | mk r g =>
                rw [hfound] at hget
                cases r with
                | none => exact hget.append (traces_nil g)
                | some c =>
                    dsimp only
                    split
                    · exact hget.append (ih g c)
                    · exact hget.append (traces_nil g)
          · exact List.cons_ne_nil _ _
          · exact List.cons_ne_nil _ _

/-- A wildcard makes a document of the level that it goes on from, so the trace has one as well. -/
theorem traces_choices (f : Forest) (frontier : Option ViewId) (segments : List String) :
    f.Traces (Trace.choices f frontier segments) (f.choices frontier segments).2 := by
  -- On the segments, for any frontier, since each wildcard and each segment moves it on.
  induction segments generalizing f frontier with
  | nil => exact traces_nil f
  | cons raw rest ih =>
      simp only [Trace.choices, choices]
      split
      · cases frontier.filter f.isContainer with
        | none => exact ih f frontier
        | some n =>
            -- The level is flattened from the children, so what happens are their fetches.
            have hlevel : f.Traces (Trace.items f n) (f.flatten n).2 := traces_items f n
            exact hlevel.append ((traces_walk _ _).append (ih _ _))
      · -- Without a frontier nothing is left to look at, and the segments go by.
        cases frontier with
        | none => exact ih f none
        | some n => exact (traces_get f n raw).append (ih _ _)

/-- A candidate with the wrong number of segments is dropped without an event. -/
theorem traces_tryCandidate (f : Forest) (n : ViewId) (path : Path) (candidate : String) :
    f.Traces (Trace.tryCandidate f n path candidate) (f.tryCandidate n path candidate).2 := by
  unfold Trace.tryCandidate tryCandidate
  dsimp only
  split
  · exact traces_walkSegments f n _
  · exact traces_nil f

/-- First the candidates are made, and then they are tried in turn. -/
theorem traces_survivors (f : Forest) (n : ViewId) (path : Path) :
    f.Traces (Trace.survivors f n path) (f.survivors n path).2 := by
  have hcandidates : f.Traces (Trace.choices f (some n) path.segments) (f.candidates n path).2 :=
    traces_choices f (some n) path.segments
  -- A turn of the loop is one candidate, kept with its text if it leads somewhere.
  refine hcandidates.append (traces_each
    (fun g text => ((g.tryCandidate n path text).1.map (text, ·),
      (g.tryCandidate n path text).2)) _ ?_ _ _)
  intro g text
  exact traces_tryCandidate g n path text

/-- Only a path with wildcards makes a document in the end, the one that it resolves to. -/
theorem traces_resolve (f : Forest) (n : ViewId) (text separator : String) :
    f.Traces (Trace.resolve f n text separator) (f.resolve n text separator).2 := by
  unfold Trace.resolve resolve
  split
  · exact traces_nil f
  · split
    · exact traces_nil f
    · dsimp only
      split
      · -- What the survivors read is put into a document of its own.
        exact (traces_survivors f n _).append (traces_walk _ _)
      · exact traces_walkSegments f n _

/-- Where there is nothing to list, the path is resolved all the same. -/
theorem traces_matchingPaths (f : Forest) (n : ViewId) (text separator : String) :
    f.Traces (Trace.matchingPaths f n text separator) (f.matchingPaths n text separator).2 := by
  have hresolve := traces_resolve f n text separator
  unfold Trace.matchingPaths matchingPaths
  split
  · exact traces_nil f
  · dsimp only
    split
    · split
      · -- Whether the path led anywhere or not, its events are those of resolving it.
        rename_i m g hr
        rw [hr] at hresolve
        exact hresolve
      · rename_i g hr
        rw [hr] at hresolve
        exact hresolve
    · exact traces_survivors f n _

/-! ## Traces of actions -/

/-- A way to navigate that does nothing to the view it is asked of is a query. -/
theorem traces_navigation (a : Navigation) (f : Forest) (n : ViewId) (h : ¬ a.MovesOrLoads) :
    f.Traces (a.trace f n) (a.perform f n) := by
  -- One case for each way to navigate. The ones left over do something to the view.
  cases a with
  | child key => exact traces_fetch f n key
  | get segment => exact traces_get f n segment
  | items => exact traces_items f n
  | primitive => exact traces_primitiveWithin _ f n
  | first => exact traces_childAt f n 0
  | last => exact traces_last f n
  | nthChild position => exact traces_nthChild f n position
  | select selector => exact traces_select f n selector
  | resolve path separator => exact traces_resolve f n path separator
  | matchingPaths path separator => exact traces_matchingPaths f n path separator
  | _ => exact absurd trivial h

/-- Moving the cursor to where the snapshot leads is one event, and the fetch of the child there is
    a query. If the snapshot leads nowhere, nothing happens. -/
theorem trace_moveTo_cases (f : Forest) (n : ViewId) (step : Snapshot → Option Nat)
    (hstep : ∀ s, s.following? = step s ∨ s.preceding? = step s) :
    let position := (f.snapshot? n).bind step
    f.Traces (Trace.moveTo f n position) (f.moveTo n position).2 ∨
      ∃ e events, Trace.moveTo f n position = e :: events ∧ e.Touches n ∧ Looks f (f.after e) ∧
        (f.after e).Traces events (f.moveTo n position).2 := by
  intro position
  -- Without a position the cursor stays, and that is a query without events.
  cases hi : position with
  | none => exact Or.inl (traces_nil f)
  | some i =>
      have hcursor := (glance_setCursor f n step hstep i hi).1
      exact Or.inr ⟨_, _, rfl, rfl, .single hcursor, traces_childAt _ n i⟩

/-- A way to navigate is a query, or it first does one thing to the view it is asked of, and a
    query follows. -/
theorem trace_cases (a : Navigation) (f : Forest) (n : ViewId) :
    f.Traces (a.trace f n) (a.perform f n) ∨
      a.MovesOrLoads ∧ ∃ e events, a.trace f n = e :: events ∧ e.Touches n ∧
        Looks f (f.after e) ∧ (f.after e).Traces events (a.perform f n) := by
  -- Four ways do something to the view, each by one event before all others.
  cases a with
  | next =>
      exact (trace_moveTo_cases f n Snapshot.following? fun _ => Or.inl rfl).imp_right fun h =>
        ⟨trivial, h⟩
  | prev =>
      exact (trace_moveTo_cases f n Snapshot.preceding? fun _ => Or.inr rfl).imp_right fun h =>
        ⟨trivial, h⟩
  | rewind =>
      refine Or.inr ⟨trivial, _, _, rfl, rfl, ?_, traces_nil _⟩
      exact looks_of_glances _ _ (glances_rewind f n)
  | reload => exact Or.inr ⟨trivial, _, _, rfl, rfl, .single (.load f n), traces_nil _⟩
  | _ => exact Or.inl (traces_navigation _ f n id)

theorem replay_moveTo (f : Forest) (n : ViewId) (position : Option Nat) :
    f.replay (Trace.moveTo f n position) = (f.moveTo n position).2 := by
  cases position with
  | none => rfl
  | some i => exact (traces_childAt (f.setCursor n (some i)) n i).replay

/-- The trace of a way to navigate leaves nothing out. -/
theorem replay_navigation (a : Navigation) (f : Forest) (n : ViewId) :
    f.replay (a.trace f n) = a.perform f n := by
  -- The four ways that are no queries are read off, for the others their traces are known.
  cases a with
  | next => exact replay_moveTo f n _
  | prev => exact replay_moveTo f n _
  | rewind => rfl
  | reload => rfl
  | _ => exact (traces_navigation _ f n id).replay

/-- The trace of an action leaves nothing out. -/
theorem replay_act (f : Forest) (a : Action) : f.replay (a.trace f) = f.act a := by
  cases a with
  | walk v => rfl
  | root d =>
      simp only [Action.trace, act]
      split <;> rfl
  | hold ns => rfl
  | navigate n a =>
      -- What cannot be asked of the view has no events and changes nothing.
      simp only [Action.trace, act]
      split
      · exact replay_navigation a f n
      · rfl
  | mutate n m =>
      simp only [Action.trace, act]
      split <;> rfl

/-- The trace of a run that goes on is continued from the forest that the run has led to. -/
theorem trace_append (f : Forest) (actions more : List Action) :
    f.trace (actions ++ more) = f.trace actions ++ (f.run actions).trace more := by
  induction actions generalizing f with
  | nil => rfl
  | cons a actions ih =>
      rw [List.cons_append, trace, trace, ih, List.append_assoc]
      rfl

/-- The events of a run lead to the forest that the run leads to. -/
theorem replay_trace (f : Forest) (actions : List Action) :
    f.replay (f.trace actions) = f.run actions := by
  -- On the actions: the trace of the others is that of the forest after this one.
  induction actions generalizing f with
  | nil => rfl
  | cons a actions ih =>
      rw [trace, replay_append, replay_act, ih]
      rfl

end Forest

end DocTree
