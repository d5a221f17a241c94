import Mathlib
import DocTree.Proofs.Forest.Descent
import DocTree.Proofs.Forest.Staleness
import DocTree.Proofs.Forest.Children

/-!
# Views That Are Left Alone

Somebody who walks along the keys of a view relies on its snapshot for a while. This module says
what may happen in the meantime: any action *leaves the view alone* that does nothing to the view
itself and does not fetch it from its parent while it is stale.

Mutations through other views are such actions. So is whatever is asked of the view itself, as
long as it is only asked and not moved or loaded, and that takes a reason: a path goes up and down
below the view, and each fetch on the way may load what it finds. But a fetch finds a child,
which is younger than its parent, and no query goes up beyond the view it starts from. So all
its fetches are made from that view or from younger ones, and none of them finds the view.

## Main definitions

* `Forest.Orderly`: a forest that is sound and rooted.
* `FetchesFrom`: events that fetch from a view and from younger ones only.
* `Forest.LeavesAlone`: an action that leaves a view alone.

## Theorems

* `lt_of_child`: a child is younger than its parent.
* `fetchesFrom_get`, `fetchesFrom_walkSegments`, `fetchesFrom_choices`: where queries fetch.
* `fetchesFrom_navigation`: no query fetches from a view older than the one it starts from.
* `leavesAlone_navigate`, `leavesAlone_mutate`: what leaves a view alone.
* `snapshot?_act_of_leavesAlone`: the snapshot of a view that is left alone stays as it is.
-/

namespace DocTree

namespace Forest

variable {f g : Forest}

/-- Sound and rooted, as every reachable forest is. -/
structure Orderly (f : Forest) : Prop where
  sound : f.Sound
  rooted : f.Rooted

/-- Every reachable forest is orderly. -/
theorem Reachable.orderly (h : f.Reachable) : f.Orderly :=
  ⟨h.sound, h.rooted⟩

/-- A sequence of moves keeps a forest orderly. -/
theorem Orderly.moves (hf : f.Orderly) (h : Moves f g) : g.Orderly :=
  ⟨sound_moves f g h hf.sound, rooted_moves f g h hf.rooted⟩

theorem Orderly.looks (hf : f.Orderly) (h : Looks f g) : g.Orderly :=
  hf.moves (moves_of_looks f g h)

theorem Orderly.glances (hf : f.Orderly) (h : Glances f g) : g.Orderly :=
  hf.looks (looks_of_glances f g h)

/-! ## Age -/

/-- A child is younger than its parent. -/
theorem lt_of_child (hf : f.Orderly) (n : ViewId) (key : Key) (c : ViewId)
    (h : (f.child n key).1 = some c) : n < c :=
  (hf.glances (glances_child f n key)).rooted.parent_lt c n
    (parent_of_child hf.sound.linked n key c h)

/-- No view further up is younger. -/
theorem le_of_ancestor? (hf : f.Rooted) (steps : Nat) (n a : ViewId)
    (h : f.ancestor? steps n = some a) : a ≤ n := by
  -- Induction on the steps, each of which leads to an older view.
  induction steps generalizing n with
  | zero => exact (Option.some.inj h).ge
  | succ steps ih =>
      rcases Option.bind_eq_some_iff.mp h with ⟨p, hp, hrest⟩
      exact (ih p hrest).trans (hf.parent_lt n p hp).le

/-- What is found below a view is no older than it. -/
theorem LeadsDown.le {n m : ViewId} {depth : Nat} {r : Option ViewId × Forest}
    (h : LeadsDown n depth r) (hr : r.2.Rooted) (hm : r.1 = some m) : n ≤ m := by
  rcases h m hm with ⟨steps, _, hsteps⟩
  exact le_of_ancestor? hr steps m n hsteps

/-- A segment leads to no older view. -/
theorem le_of_get (hf : f.Orderly) (n : ViewId) (raw : String) (c : ViewId)
    (h : (f.get n raw).1 = some c) : n ≤ c :=
  (leadsDown_get hf.sound.linked n raw).le (hf.glances (glances_get f n raw)).rooted h

/-- The children that are listed are younger than the view. -/
theorem lt_of_mem_items (hf : f.Orderly) (n : ViewId) (e : Key × ViewId)
    (h : e ∈ (f.items n).1) : n < e.2 := by
  rcases List.mem_filterMap.mp h with ⟨r, hr, hsome⟩
  rcases moment_thread_child f n (f.keys n) e (hsome ▸ hr) with
    ⟨g, key, ⟨before, later, hevents, rfl⟩, hchild⟩
  -- Before the child was fetched there were only other fetches.
  have hqueries : ∀ e ∈ before, e.IsQuery := fun e he =>
    (traces_items f n).queries e (by rw [Trace.items, hevents]; exact List.mem_append_left _ he)
  exact lt_of_child (hf.looks (looks_replay f before hqueries)) n key e.2 hchild

end Forest

/-! ## Where queries fetch -/

/-- All fetches among these events are from this view or from younger ones. -/
def FetchesFrom (n : ViewId) (events : List Event) : Prop :=
  ∀ p key, Event.fetch p key ∈ events → n ≤ p

theorem fetchesFrom_nil (n : ViewId) : FetchesFrom n [] :=
  fun _ _ h => absurd h List.not_mem_nil

theorem fetchesFrom_fetch (n : ViewId) (key : Key) : FetchesFrom n [.fetch n key] := by
  intro p key' h
  rw [List.mem_singleton, Event.fetch.injEq] at h
  exact h.1.ge

/-- Two stretches of events that fetch from young views do so together. -/
theorem FetchesFrom.append {n : ViewId} {events more : List Event} (h : FetchesFrom n events)
    (h' : FetchesFrom n more) : FetchesFrom n (events ++ more) :=
  fun p key hmem => (List.mem_append.mp hmem).elim (h p key) (h' p key)

theorem FetchesFrom.mono {n m : ViewId} {events : List Event} (h : FetchesFrom m events)
    (hle : n ≤ m) : FetchesFrom n events :=
  fun p key hmem => hle.trans (h p key hmem)

/-- Making a document fetches nothing. -/
theorem FetchesFrom.walk_cons {n : ViewId} {events : List Event} (h : FetchesFrom n events)
    (v : Value) : FetchesFrom n (.walk v :: events) := by
  intro p key hmem
  exact h p key ((List.mem_cons.mp hmem).resolve_left (by simp))

namespace Forest

/-- The turns of a loop start from what the earlier ones have come to, but a query leaves a forest
    orderly. -/
theorem fetchesFrom_each {α : Type} (turn : Forest → α → List Event) (n : ViewId)
    (hqueries : ∀ f a, ∀ e ∈ turn f a, e.IsQuery) (f : Forest) (hf : f.Orderly)
    (as : List α) (h : ∀ f : Forest, f.Orderly → ∀ a ∈ as, FetchesFrom n (turn f a)) :
    FetchesFrom n (Trace.each turn f as) := by
  induction as generalizing f with
  | nil => exact fetchesFrom_nil n
  | cons a as ih =>
      have hlooks := looks_replay f (turn f a) (hqueries f a)
      refine (h f hf a List.mem_cons_self).append (ih _ (hf.looks hlooks) fun g hg b hb => ?_)
      exact h g hg b (List.mem_cons_of_mem _ hb)

variable (f : Forest) (n : ViewId)

theorem fetchesFrom_items (hf : f.Orderly) : FetchesFrom n (Trace.items f n) :=
  fetchesFrom_each _ n (fun g key => (traces_fetch g n key).queries) f hf (f.keys n)
    fun _ _ key _ => fetchesFrom_fetch n key

theorem fetchesFrom_childAt (i : Nat) : FetchesFrom n (Trace.childAt f n i) := by
  unfold Trace.childAt
  cases (f.keys n)[i]? with
  | some key => exact fetchesFrom_fetch n key
  | none => exact fetchesFrom_nil n

theorem fetchesFrom_last : FetchesFrom n (Trace.last f n) := by
  unfold Trace.last
  cases (f.snapshot? n).bind Snapshot.last with
  | some i => exact fetchesFrom_childAt f n i
  | none => exact fetchesFrom_nil n

theorem fetchesFrom_nthChild (position : Int64) : FetchesFrom n (Trace.nthChild f n position) := by
  unfold Trace.nthChild
  split
  · exact fetchesFrom_childAt f n _
  · exact fetchesFrom_nil n

/-- A selector fetches from the view only. -/
theorem fetchesFrom_select (s : Selector) : FetchesFrom n (Trace.select f n s) := by
  unfold Trace.select
  split
  · cases s with
    | parent => exact fetchesFrom_nil n
    | nthChild i => exact fetchesFrom_nthChild f n i
    | first => exact fetchesFrom_childAt f n 0
    | last => exact fetchesFrom_last f n
  · exact fetchesFrom_nil n

/-- A segment fetches from the view, and then from the child if it has a selector. -/
theorem fetchesFrom_get (hf : f.Orderly) (raw : String) : FetchesFrom n (Trace.get f n raw) := by
  have hfetch := fetchesFrom_fetch n (Segment.parse raw).key
  simp only [Trace.get]
  cases hchild : f.child n (Segment.parse raw).key with
  | mk r g =>
      cases r with
      | none => exact hfetch
      | some c =>
          have hlt := lt_of_child hf n _ c (congrArg Prod.fst hchild)
          cases (Segment.parse raw).selector with
          | none => exact hfetch
          | some s => exact hfetch.append ((fetchesFrom_select g c s).mono hlt.le)

/-- Later segments fetch from what the earlier ones have led to. -/
theorem fetchesFrom_walkSegments (hf : f.Orderly) (segments : List String) :
    FetchesFrom n (Trace.walkSegments f n segments) := by
  -- Induction on the segments. The view and the forest change with every one of them.
  induction segments generalizing f n with
  | nil => exact fetchesFrom_nil n
  | cons raw rest ih =>
      have hget := fetchesFrom_get f n hf raw
      cases rest with
      | nil => exact hget
      | cons next rest =>
          rw [Trace.walkSegments]
          · refine hget.append ?_
            cases hfound : f.get n raw with
            | mk r g =>
                cases r with
                | none => exact fetchesFrom_nil n
                | some c =>
                    -- The rest is fetched from what the segment has led to, or from younger views.
                    dsimp only
                    split
                    · have hg := hf.glances (glances_get f n raw)
                      rw [hfound] at hg
                      refine (ih g c hg).mono (le_of_get hf n raw c ?_)
                      rw [hfound]
                    · exact fetchesFrom_nil n
          · exact List.cons_ne_nil _ _

/-- Rebuilding a value fetches from the view and from what is below it. -/
theorem fetchesFrom_primitiveWithin (hf : f.Orderly) (depth : Nat) :
    FetchesFrom n (Trace.primitiveWithin depth f n) := by
  induction depth generalizing f n with
  | zero => exact fetchesFrom_nil n
  | succ depth ih =>
      simp only [Trace.primitiveWithin]
      split
      · -- The children are younger, and so is all that is fetched from them.
        refine (fetchesFrom_items f n hf).append ?_
        refine fetchesFrom_each _ n
          (fun g (e : Key × ViewId) => (traces_primitiveWithin depth g e.2).queries) _
          (hf.glances (glances_items f n)) _ fun g hg e he => ?_
        exact (ih g e.2 hg).mono (lt_of_mem_items hf n e he).le
      · exact fetchesFrom_nil n

/-! ## Wildcards -/

/-- A frontier moves on to children and to views of new documents, and both are younger. -/
theorem fetchesFrom_choices (hf : f.Orderly) (frontier : Option ViewId) (segments : List String)
    (hsize : n ≤ f.views.size) (hfrontier : ∀ m, frontier = some m → n ≤ m) :
    FetchesFrom n (Trace.choices f frontier segments) := by
  -- Induction on the segments, where the frontier is never older than the view that the query
  -- starts from.
  induction segments generalizing f frontier with
  | nil => exact fetchesFrom_nil n
  | cons raw rest ih =>
      simp only [Trace.choices]
      split
      · cases hkept : frontier.filter f.isContainer with
        | none => exact ih f hf frontier hsize hfrontier
        | some m =>
            have hm := hfrontier m (Option.filter_eq_some_iff.mp hkept).1
            have hflatten := looks_of_glances _ _ (glances_flatten f m)
            have hwalk := looks_walk (f.flatten m).2 (.container (f.flatten m).1)
            -- The next frontier is the view of a new document, and no view is younger.
            have hle := hsize.trans (size_le_of_looks _ _ hflatten)
            refine ((fetchesFrom_items f m hf).mono hm).append (.walk_cons ?_ _)
            refine ih _ (hf.looks (hflatten.trans hwalk)) _
              (hle.trans (size_le_of_looks _ _ hwalk)) fun next hnext => ?_
            rw [← Option.some.inj hnext]
            exact hle
      · cases frontier with
        | none => exact ih f hf none hsize hfrontier
        | some m =>
            have hm := hfrontier m rfl
            have hglances := glances_get f m raw
            refine ((fetchesFrom_get f m hf raw).mono hm).append ?_
            refine ih _ (hf.glances hglances) _
              (hsize.trans (size_le_of_looks _ _ (looks_of_glances _ _ hglances))) fun c hc => ?_
            exact hm.trans (le_of_get hf m raw c hc)

theorem fetchesFrom_tryCandidate (hf : f.Orderly) (path : Path) (candidate : String) :
    FetchesFrom n (Trace.tryCandidate f n path candidate) := by
  unfold Trace.tryCandidate
  dsimp only
  split
  · exact fetchesFrom_walkSegments f n hf _
  · exact fetchesFrom_nil n

/-- The candidates are put together and tried from the view, so both fetch from it or from younger
    views. -/
theorem fetchesFrom_survivors (hf : f.Orderly) (hn : n < f.views.size) (path : Path) :
    FetchesFrom n (Trace.survivors f n path) := by
  have hchoices := fetchesFrom_choices f n hf (some n) path.segments hn.le
    fun m hm => (Option.some.inj hm).le
  refine hchoices.append (fetchesFrom_each _ n ?_ _ ?_ _ ?_)
  · exact fun g text => (traces_tryCandidate g n path text).queries
  · exact hf.looks (looks_choices f (some n) path.segments)
  · exact fun g hg text _ => fetchesFrom_tryCandidate g n hg path text

theorem fetchesFrom_resolve (hf : f.Orderly) (hn : n < f.views.size) (text separator : String) :
    FetchesFrom n (Trace.resolve f n text separator) := by
  -- The empty path and the lone wildcard fetch nothing; the other two ways do.
  unfold Trace.resolve
  split
  · exact fetchesFrom_nil n
  · split
    · exact fetchesFrom_nil n
    · dsimp only
      split
      · exact (fetchesFrom_survivors f n hf hn _).append (.walk_cons (fetchesFrom_nil n) _)
      · exact fetchesFrom_walkSegments f n hf _

theorem fetchesFrom_matchingPaths (hf : f.Orderly) (hn : n < f.views.size)
    (text separator : String) : FetchesFrom n (Trace.matchingPaths f n text separator) := by
  unfold Trace.matchingPaths
  split
  · exact fetchesFrom_nil n
  · dsimp only
    split
    · exact fetchesFrom_resolve f n hf hn text separator
    · exact fetchesFrom_survivors f n hf hn _

/-- No query fetches from a view that is older than the one it starts from. -/
theorem fetchesFrom_navigation (hf : f.Orderly) (hn : n < f.views.size) (a : Navigation)
    (ha : ¬ a.MovesOrLoads) : FetchesFrom n (a.trace f n) := by
  cases a with
  | child key => exact fetchesFrom_fetch n key
  | get segment => exact fetchesFrom_get f n hf segment
  | items => exact fetchesFrom_items f n hf
  | primitive => exact fetchesFrom_primitiveWithin f n hf _
  | first => exact fetchesFrom_childAt f n 0
  | last => exact fetchesFrom_last f n
  | nthChild position => exact fetchesFrom_nthChild f n position
  | select selector => exact fetchesFrom_select f n selector
  | resolve path separator => exact fetchesFrom_resolve f n hf hn path separator
  | matchingPaths path separator => exact fetchesFrom_matchingPaths f n hf hn path separator
  | _ => exact absurd trivial ha

/-! ## Actions -/

variable {f} {n}

/-- The action does nothing to the view itself, and does not fetch it while it is stale. -/
def LeavesAlone (f : Forest) (n : ViewId) (a : Action) : Prop :=
  ¬ a.Touches n ∧
    f.Throughout (a.trace f) fun g e => ∀ p key, e = .fetch p key → ¬ g.Refreshes p key n

/-- A view that is left alone keeps its snapshot, the cursor included. -/
theorem snapshot?_act_of_leavesAlone (hf : f.Sound) (hn : n < f.views.size) (a : Action)
    (h : f.LeavesAlone n a) : (f.act a).snapshot? n = f.snapshot? n := by
  rcases h with ⟨htouches, hthroughout⟩
  cases a with
  | walk v => exact snapshot?_root_of_lt _ _ n hn
  | root d =>
      simp only [act]
      split
      · exact snapshot?_root_of_lt f d n hn
      · rfl
  | hold ns => rfl
  | navigate m q =>
      simp only [act, Action.trace] at hthroughout ⊢
      split
      · rename_i husable
        rw [if_pos husable] at hthroughout
        rw [← replay_navigation]
        -- Another snapshot would have come from a fetch of the view while it was stale.
        refine (snapshot?_navigation f hf m q n hn fun hm hmoves =>
          htouches ⟨hm, hmoves⟩).resolve_right ?_
        rintro ⟨_, ⟨g, p, key, hmoment, hload, _⟩, _⟩
        exact hthroughout g _ hmoment p key rfl hload
      · rfl
  | mutate m mutation =>
      simp only [act]
      split
      · exact snapshot?_perform_of_ne f m n mutation htouches
      · rfl

/-- Whatever is asked of a view itself leaves it alone, unless it is moved or loaded. -/
theorem leavesAlone_navigate (hf : f.Orderly) (hn : n < f.views.size) (a : Navigation)
    (ha : ¬ a.MovesOrLoads) : f.LeavesAlone n (.navigate n a) := by
  refine ⟨fun htouches => ha htouches.2, fun g e hmoment p key he hload => ?_⟩
  rw [Action.trace] at hmoment
  split at hmoment
  · rcases hmoment with ⟨before, later, hevents, rfl⟩
    -- Only its parent could fetch it, and that is older.
    have hfetch : Event.fetch p key ∈ a.trace f n := by
      rw [hevents, he]
      exact List.mem_append_right _ List.mem_cons_self
    have hle := fetchesFrom_navigation f n hf hn a ha p key hfetch
    have hbefore : Looks f (f.replay before) := by
      refine looks_replay f before fun e' he' => (traces_navigation a f n ha).queries e' ?_
      rw [hevents]
      exact List.mem_append_left _ he'
    exact absurd ((hf.looks hbefore).rooted.parent_lt n p hload.parent) (Nat.not_lt.mpr hle)
  · exact not_moment_nil f g e hmoment

/-- A mutation leaves alone all views but the one that it goes through. -/
theorem leavesAlone_mutate (f : Forest) (m : ViewId) (mutation : Mutation) (h : m ≠ n) :
    f.LeavesAlone n (.mutate m mutation) := by
  refine ⟨h, fun g e hmoment p key he _ => ?_⟩
  rcases hmoment with ⟨before, later, hevents, _⟩
  have hmem : Event.fetch p key ∈ (Action.mutate m mutation).trace f := by
    rw [hevents, he]
    exact List.mem_append_right _ List.mem_cons_self
  rw [Action.trace] at hmem
  split at hmem
  · exact absurd (List.mem_singleton.mp hmem) (by simp)
  · exact List.not_mem_nil hmem

end Forest

end DocTree
