import Mathlib
import DocTree.Proofs.Forest.Mutation

/-!
# Runs

What a program can do with a forest, one action after the other, and what that comes
to underneath.

An action goes through a view that is alive: a program can only use a view that it
holds, and the ancestors of one. Between actions it may let go of views. A *run* is a
list of actions, and a forest is *reachable* when some run leads to it from documents
without views.

There are many ways to navigate, and most of them loop. Underneath each is a sequence
of a few elementary steps: a document is added, a view of a whole document is made, a
child is made and remembered, a snapshot is loaded, a cursor is moved. `Look` lists
these with all that is known when they are taken, so an invariant of every reachable
forest has to be checked for them alone. A mutation adds the write of a slot.

Only paths with wildcards make documents. Any other way to navigate is a sequence of
*glances*, looks that leave the documents as they are.

## Main definitions

* `Navigation`, `Action`: what a program can do.
* `Forest.act`, `Forest.run`, `Forest.Reachable`: doing it.
* `Forest.adopt`: making a child and remembering it.
* `Forest.Look`, `Forest.Move`: the elementary steps of navigation, and of all actions.
* `Forest.Glance`: those of navigation that make no document.
* `Forest.Looks`, `Forest.Glances`, `Forest.Moves`: sequences of them.

## Theorems

* `child_cases`: all that fetching a child can come to.
* `glances_child`: fetching a child is a sequence of glances.
* `glances_thread`: so is a loop of operations that are.
* `glances_navigation`: so is every way to navigate, but for paths with wildcards.
* `looks_navigation`: every way to navigate is a sequence of looks.
* `moves_act`, `moves_run`: every action, and every run, is a sequence of moves.
* `Reachable.induction`: an invariant of the moves holds of every reachable forest.
-/

namespace DocTree

/-- A way to navigate from a view. -/
inductive Navigation where
  | child (key : Key)
  | get (segment : String)
  | items
  | primitive
  | next
  | prev
  | rewind
  | first
  | last
  | nthChild (position : Int64)
  | select (selector : Selector)
  | reload
  | resolve (path separator : String)
  | matchingPaths (path separator : String)

/-- The forest after navigating from a view. -/
def Navigation.perform (a : Navigation) (f : Forest) (n : ViewId) : Forest :=
  match a with
  | child key => (f.child n key).2
  | get segment => (f.get n segment).2
  | items => (f.items n).2
  | primitive => (f.primitive n).2
  | next => (f.next n).2
  | prev => (f.prev n).2
  | rewind => f.rewind n
  | first => (f.first n).2
  | last => (f.last n).2
  | nthChild position => (f.nthChild n position).2
  | select selector => (f.select n selector).2
  | reload => f.reload n
  | resolve path separator => (f.resolve n path separator).2
  | matchingPaths path separator => (f.matchingPaths n path separator).2

/-- What a program does with a forest at one time. -/
inductive Action where
  /-- Makes a document of a value, and a view of it. -/
  | walk (value : Value)
  /-- Makes another view of a document. -/
  | root (document : DocumentId)
  /-- Lets go of all views but these. -/
  | hold (views : List ViewId)
  | navigate (view : ViewId) (navigation : Navigation)
  | mutate (view : ViewId) (mutation : Mutation)

namespace Forest

/-- A program can use this view: it exists, and it is alive. -/
def isUsable (f : Forest) (n : ViewId) : Bool :=
  n < f.views.size && f.isAlive n

/-- The forest after an action. One that is not possible does nothing. -/
def act (f : Forest) : Action → Forest
  | .walk v => (f.walk v).2
  | .root d => if d < f.documents.size then (f.root d).2 else f
  | .hold ns => f.settle (ns.filter f.isUsable)
  | .navigate n a => if f.isUsable n then a.perform f n else f
  | .mutate n m => if f.isUsable n then (m.perform f n).2 else f

/-- The forest after actions, in order. -/
def run (f : Forest) (actions : List Action) : Forest :=
  actions.foldl act f

/-- Some run leads to this forest from documents without views. -/
def Reachable (f : Forest) : Prop :=
  ∃ documents actions, f = (ofDocuments documents).run actions

theorem reachable_aliased : aliased.Reachable :=
  ⟨[.container [(.name "a", .container [])]],
    [.root 0, .navigate 0 (.child (.name "a")), .root 0, .navigate 2 (.child (.name "a")),
      .mutate 3 (.append [.int 7])], rfl⟩

/-- A run may go on from wherever another one has led. -/
theorem Reachable.run {f : Forest} (h : f.Reachable) (actions : List Action) :
    (f.run actions).Reachable := by
  rcases h with ⟨documents, before, rfl⟩
  exact ⟨documents, before ++ actions, List.foldl_append.symm⟩

/-! ## Elementary steps -/

/-- Makes the child of a view under a key, whose slot holds `slot`, and remembers it. -/
def adopt (f : Forest) (n : ViewId) (v : View) (key : Key) (slot : Value) : Forest :=
  (f.makeView v.document (v.location ++ [key]) (some key) (some n) slot).2.update n
    (·.withChild key f.views.size f.isAlive)

/-- An elementary step of navigation. -/
inductive Look : Forest → Forest → Prop
  | add (f : Forest) (v : Value) : Look f { f with documents := f.documents.push v }
  | root (f : Forest) (d : DocumentId) : d < f.documents.size → Look f (f.root d).2
  | child (f : Forest) (n : ViewId) (v : View) (key : Key) (slot : Value) :
      f.view? n = some v → key ∈ f.keys n →
      f.slotAt? v.document (v.location ++ [key]) = some slot → Look f (f.adopt n v key slot)
  | load (f : Forest) (n : ViewId) : Look f (f.reload n)
  | cursor (f : Forest) (n : ViewId) (s : Snapshot) (position : Option Nat) :
      f.snapshot? n = some s →
      position = none ∨ s.following? = position ∨ s.preceding? = position →
      Look f (f.update n (·.withSnapshot { s with cursor := position }))

/-- An elementary step of any action. -/
inductive Move : Forest → Forest → Prop
  | look (f g : Forest) : Look f g → Move f g
  | write (f : Forest) (n : ViewId) (v : View) (c d : Entries Value) :
      f.Holds n v c → Move f (f.write n (.container d))
  | settle (f : Forest) (held : List ViewId) : Move f (f.settle held)

/-- An elementary step of navigation that makes no document. -/
def Glance (f g : Forest) : Prop :=
  Look f g ∧ g.documents = f.documents

/-- A sequence of looks. -/
abbrev Looks : Forest → Forest → Prop := Relation.ReflTransGen Look

/-- A sequence of glances. -/
abbrev Glances : Forest → Forest → Prop := Relation.ReflTransGen Glance

/-- A sequence of moves. -/
abbrev Moves : Forest → Forest → Prop := Relation.ReflTransGen Move

theorem looks_of_glances (f g : Forest) (h : Glances f g) : Looks f g :=
  Relation.ReflTransGen.mono (fun _ _ hglance => hglance.1) f g h

/-- Glances leave the documents as they are. -/
theorem documents_of_glances (f g : Forest) (h : Glances f g) : g.documents = f.documents := by
  induction h with
  | refl => rfl
  | tail _ hglance ih => exact hglance.2.trans ih

theorem glance_load (f : Forest) (n : ViewId) : Glance f (f.reload n) :=
  ⟨.load f n, rfl⟩

/-! ## Children -/

/-- Fetching a child of a slot that exists, under a key of the snapshot: the remembered
    child, brought up to date, or a new one. -/
theorem child_of_slot (f : Forest) (n : ViewId) (v : View) (key : Key) (slot : Value)
    (hv : f.view? n = some v) (hkey : key ∈ f.keys n)
    (hslot : f.slotAt? v.document (v.location ++ [key]) = some slot) :
    f.child n key =
      match f.cached? v.children key slot.isContainer with
      | some c => (some c, f.revalidate c)
      | none => (some f.views.size, f.adopt n v key slot) := by
  rcases v with ⟨d, location, own, parent, face⟩
  cases face with
  -- A leaf has no snapshot that could have the key.
  | leaf => simp [keys, snapshot?, hv, View.snapshot?] at hkey
  | container snapshot children =>
      simp only [keys, snapshot?, hv, View.snapshot?, Option.bind_some, Option.map_some,
        Option.getD_some] at hkey
      simp only [child, hv, if_pos hkey, hslot, View.children]
      cases f.cached? children key slot.isContainer <;> rfl

/-- Without the key in the snapshot, or without a slot, there is no child. -/
theorem child_of_none (f : Forest) (n : ViewId) (key : Key)
    (h : ∀ v, f.view? n = some v → key ∈ f.keys n →
      f.slotAt? v.document (v.location ++ [key]) = none) :
    f.child n key = (none, f) := by
  unfold child
  split
  · rename_i d location own parent snapshot children hv
    split
    · rename_i hkey
      have hnone := h _ hv (by
        simpa only [keys, snapshot?, hv, View.snapshot?, Option.bind_some, Option.map_some,
          Option.getD_some] using hkey)
      simp only [hnone]
    · rfl
  · rfl

/-- A child that is found in the cache is remembered under the key, and has the kind asked
    for. -/
theorem get?_of_cached? (f : Forest) (children : List (Key × ViewId)) (key : Key)
    (container : Bool) (c : ViewId) (h : f.cached? children key container = some c) :
    Entries.get? children key = some c ∧ f.isContainer c = container := by
  simp only [cached?, Option.filter_eq_some_iff, Bool.and_eq_true, beq_iff_eq] at h
  exact ⟨h.1, h.2.2⟩

/-- Bringing a view up to date loads it, or does nothing. -/
theorem glances_revalidate (f : Forest) (n : ViewId) : Glances f (f.revalidate n) := by
  unfold revalidate
  split
  · exact .single (glance_load f n)
  · exact .refl

/-- All that a fetch can come to: nothing, a remembered child that is brought up to date, or a
    new child. -/
theorem child_cases (f : Forest) (n : ViewId) (key : Key) :
    f.child n key = (none, f) ∨
      ∃ v slot, f.view? n = some v ∧ key ∈ f.keys n ∧
        f.slotAt? v.document (v.location ++ [key]) = some slot ∧
        ((∃ c, Entries.get? v.children key = some c ∧
            f.child n key = (some c, f.revalidate c)) ∨
          f.child n key = (some f.views.size, f.adopt n v key slot)) := by
  -- Either there is all that a child needs, or nothing is found.
  by_cases h : ∃ v slot, f.view? n = some v ∧ key ∈ f.keys n ∧
      f.slotAt? v.document (v.location ++ [key]) = some slot
  · rcases h with ⟨v, slot, hv, hkey, hslot⟩
    refine Or.inr ⟨v, slot, hv, hkey, hslot, ?_⟩
    rw [child_of_slot f n v key slot hv hkey hslot]
    cases hcached : f.cached? v.children key slot.isContainer with
    | some c => exact Or.inl ⟨c, (get?_of_cached? f v.children key _ c hcached).1, rfl⟩
    | none => exact Or.inr rfl
  · refine Or.inl (child_of_none f n key fun v hv hkey => ?_)
    rw [Option.eq_none_iff_forall_ne_some]
    exact fun slot hslot => h ⟨v, slot, hv, hkey, hslot⟩

/-- Fetching a child is a glance at most. -/
theorem glances_child (f : Forest) (n : ViewId) (key : Key) : Glances f (f.child n key).2 := by
  rcases child_cases f n key with hnone | ⟨v, slot, hv, hkey, hslot, ⟨c, _, hold⟩ | hnew⟩
  · rw [hnone]
  · rw [hold]
    exact glances_revalidate f c
  · rw [hnew]
    exact .single ⟨.child f n v key slot hv hkey hslot, rfl⟩

/-! ## Navigation -/

/-- A loop of operations that are sequences of glances is one. -/
theorem glances_thread {α β : Type} (op : Forest → α → β × Forest)
    (hop : ∀ f a, Glances f (op f a).2) (f : Forest) (as : List α) :
    Glances f (thread op f as).2 := by
  induction as generalizing f with
  | nil => exact .refl
  | cons a as ih => exact (hop f a).trans (ih (op f a).2)

/-- All children are fetched, one after the other. -/
theorem glances_items (f : Forest) (n : ViewId) : Glances f (f.items n).2 := by
  unfold items
  refine glances_thread _ ?_ f (f.keys n)
  intro g key
  exact glances_child g n key

/-- Rebuilding a value fetches children, at every depth. -/
theorem glances_primitiveWithin (depth : Nat) (f : Forest) (n : ViewId) :
    Glances f (primitiveWithin depth f n).2 := by
  -- On the depth: a turn of the loop rebuilds one child, a level further down.
  induction depth generalizing f n with
  | zero => exact .refl
  | succ depth ih =>
      simp only [primitiveWithin]
      split
      · refine (glances_items f n).trans (glances_thread _ ?_ _ _)
        intro g e
        exact ih g e.2
      · exact .refl

theorem glances_childAt (f : Forest) (n : ViewId) (i : Nat) : Glances f (f.childAt n i).2 := by
  unfold childAt
  split
  · exact glances_child f n _
  · exact .refl

/-- Moving the cursor to where the snapshot leads. -/
theorem glance_setCursor (f : Forest) (n : ViewId) (step : Snapshot → Option Nat)
    (hstep : ∀ s, s.following? = step s ∨ s.preceding? = step s) (i : Nat)
    (hi : (f.snapshot? n).bind step = some i) : Glance f (f.setCursor n (some i)) := by
  rcases Option.bind_eq_some_iff.mp hi with ⟨s, hs, hstep'⟩
  simp only [setCursor, hs]
  -- A cursor moves one position on or back, and this is one of the two.
  exact ⟨.cursor f n s (some i) hs (Or.inr (by rw [← hstep']; exact hstep s)), rfl⟩

/-- The cursor is moved, and then the child there is fetched. -/
theorem glances_moveTo (f : Forest) (n : ViewId) (step : Snapshot → Option Nat)
    (hstep : ∀ s, s.following? = step s ∨ s.preceding? = step s) :
    Glances f (f.moveTo n ((f.snapshot? n).bind step)).2 := by
  cases hi : (f.snapshot? n).bind step with
  | none => exact .refl
  | some i => exact (glances_childAt _ n i).head (glance_setCursor f n step hstep i hi)

theorem glances_rewind (f : Forest) (n : ViewId) : Glances f (f.rewind n) := by
  unfold rewind setCursor
  split
  · rename_i s hs
    exact .single ⟨.cursor f n s none hs (Or.inl rfl), rfl⟩
  · exact .refl

theorem glances_last (f : Forest) (n : ViewId) : Glances f (f.last n).2 := by
  unfold last
  split
  · exact glances_childAt f n _
  · exact .refl

theorem glances_nthChild (f : Forest) (n : ViewId) (position : Int64) :
    Glances f (f.nthChild n position).2 := by
  unfold nthChild
  split
  · exact glances_childAt f n _
  · exact .refl

theorem glances_select (f : Forest) (n : ViewId) (s : Selector) : Glances f (f.select n s).2 := by
  unfold select
  split
  · -- The parent is there already. The others are children at a position.
    cases s with
    | parent => exact .refl
    | nthChild i => exact glances_nthChild f n i
    | first => exact glances_childAt f n 0
    | last => exact glances_last f n
  · exact .refl

/-- A segment fetches a child, and what its clause names there. -/
theorem glances_get (f : Forest) (n : ViewId) (raw : String) : Glances f (f.get n raw).2 := by
  have hchild := glances_child f n (Segment.parse raw).key
  simp only [get]
  split
  · rename_i c g hc
    rw [hc] at hchild
    split
    · -- The clause is asked of the child that the key has led to.
      exact hchild.trans (glances_select g c _)
    · exact hchild
  · rename_i g hc
    rw [hc] at hchild
    exact hchild

/-- A walk is made of the glances of its segments. -/
theorem glances_walkSegments (f : Forest) (n : ViewId) (segments : List String) :
    Glances f (f.walkSegments n segments).2 := by
  -- By the cases of the walk: it goes on, or ends at a leaf or where nothing is found.
  fun_induction walkSegments f n segments with
  | case1 => exact .refl
  | case2 f n raw => exact glances_get f n raw
  | case3 f n raw rest _ c g hget _ ih =>
      have hglances := glances_get f n raw
      rw [hget] at hglances
      exact hglances.trans ih
  | case4 f n raw rest _ c g hget =>
      have hglances := glances_get f n raw
      rw [hget] at hglances
      exact hglances
  | case5 f n raw rest _ g hget =>
      have hglances := glances_get f n raw
      rw [hget] at hglances
      exact hglances

/-! ## Wildcards -/

/-- A new document, and a view of it. -/
theorem looks_walk (f : Forest) (v : Value) : Looks f (f.walk v).2 :=
  (Relation.ReflTransGen.single (Look.add f v)).tail (.root _ _ (by simp))

theorem glances_flatten (f : Forest) (n : ViewId) : Glances f (f.flatten n).2 :=
  glances_items f n

/-- Each wildcard adds a document, and everything else is glances. -/
theorem looks_choices (f : Forest) (frontier : Option ViewId) (segments : List String) :
    Looks f (f.choices frontier segments).2 := by
  induction segments generalizing f frontier with
  | nil => exact .refl
  | cons raw rest ih =>
      simp only [choices]
      -- A wildcard goes on from a document of all children, another segment from one child.
      split
      · split
        · rename_i n _
          exact ((looks_of_glances _ _ (glances_flatten f n)).trans (looks_walk _ _)).trans (ih _ _)
        · exact ih f frontier
      · cases frontier with
        | none => exact ih f none
        | some n => exact (looks_of_glances _ _ (glances_get f n raw)).trans (ih _ _)

theorem glances_tryCandidate (f : Forest) (n : ViewId) (path : Path) (candidate : String) :
    Glances f (f.tryCandidate n path candidate).2 := by
  unfold tryCandidate
  dsimp only
  split
  · exact glances_walkSegments f n _
  · exact .refl

/-- The candidates are made by looks and tried by glances. -/
theorem looks_survivors (f : Forest) (n : ViewId) (path : Path) :
    Looks f (f.survivors n path).2 := by
  have hcandidates : Looks f (f.candidates n path).2 := looks_choices f (some n) path.segments
  unfold survivors
  refine hcandidates.trans (looks_of_glances _ _ (glances_thread _ ?_ _ _))
  intro g candidate
  exact glances_tryCandidate g n path candidate

/-- Resolving a path only looks, with wildcards or without. -/
theorem looks_resolve (f : Forest) (n : ViewId) (text separator : String) :
    Looks f (f.resolve n text separator).2 := by
  unfold resolve
  split
  · exact .refl
  · split
    · exact .refl
    · dsimp only
      split
      · -- What the wildcards have found becomes a document of its own.
        exact (looks_survivors f n _).trans (looks_walk _ _)
      · exact looks_of_glances _ _ (glances_walkSegments f n _)

theorem looks_matchingPaths (f : Forest) (n : ViewId) (text separator : String) :
    Looks f (f.matchingPaths n text separator).2 := by
  have hresolve := looks_resolve f n text separator
  unfold matchingPaths
  split
  · exact .refl
  · dsimp only
    split
    · split
      · rename_i m g hr
        rw [hr] at hresolve
        exact hresolve
      · rename_i g hr
        rw [hr] at hresolve
        exact hresolve
    · exact looks_survivors f n _

/-! ## Runs -/

/-- Every way to navigate is a sequence of glances, unless it goes by a path that may have
    wildcards. -/
theorem glances_navigation (a : Navigation) (f : Forest) (n : ViewId)
    (hresolve : ∀ path separator, a ≠ .resolve path separator)
    (hmatching : ∀ path separator, a ≠ .matchingPaths path separator) :
    Glances f (a.perform f n) := by
  -- One case for each way to navigate. The two that may add documents are left out.
  cases a with
  | child key => exact glances_child f n key
  | get segment => exact glances_get f n segment
  | items => exact glances_items f n
  | primitive => exact glances_primitiveWithin _ f n
  | next => exact glances_moveTo f n Snapshot.following? fun _ => Or.inl rfl
  | prev => exact glances_moveTo f n Snapshot.preceding? fun _ => Or.inr rfl
  | rewind => exact glances_rewind f n
  | first => exact glances_childAt f n 0
  | last => exact glances_last f n
  | nthChild position => exact glances_nthChild f n position
  | select selector => exact glances_select f n selector
  | reload => exact .single (glance_load f n)
  | resolve path separator => exact absurd rfl (hresolve path separator)
  | matchingPaths path separator => exact absurd rfl (hmatching path separator)

/-- Every way to navigate is a sequence of looks. -/
theorem looks_navigation (a : Navigation) (f : Forest) (n : ViewId) : Looks f (a.perform f n) := by
  cases a with
  | resolve path separator => exact looks_resolve f n path separator
  | matchingPaths path separator => exact looks_matchingPaths f n path separator
  | _ => exact looks_of_glances _ _ (glances_navigation _ f n (by simp) (by simp))

theorem moves_of_looks (f g : Forest) (h : Looks f g) : Moves f g :=
  Relation.ReflTransGen.mono Move.look f g h

/-- A mutation writes a slot and loads a view, or does nothing. -/
theorem moves_mutation (m : Mutation) (f : Forest) (n : ViewId) : Moves f (m.perform f n).2 := by
  rcases m.perform_cases f n with hnone | ⟨v, c, hv, hwrite⟩
  · rw [hnone]
  · rw [hwrite]
    exact (Relation.ReflTransGen.single (Move.write f n v c _ hv)).tail (.look _ _ (.load _ n))

/-- Every action is a sequence of moves. -/
theorem moves_act (f : Forest) (a : Action) : Moves f (f.act a) := by
  -- An action that is not possible makes no move.
  cases a with
  | walk v => exact moves_of_looks _ _ (looks_walk f v)
  | root d =>
      simp only [act]
      split
      · rename_i hd
        exact .single (.look _ _ (.root f d hd))
      · exact .refl
  | hold ns => exact .single (.settle f _)
  | navigate n a =>
      simp only [act]
      split
      · exact moves_of_looks _ _ (looks_navigation a f n)
      · exact .refl
  | mutate n m =>
      simp only [act]
      split
      · exact moves_mutation m f n
      · exact .refl

/-- So is every run. -/
theorem moves_run (f : Forest) (actions : List Action) : Moves f (f.run actions) := by
  induction actions generalizing f with
  | nil => exact .refl
  | cons a actions ih => exact (moves_act f a).trans (ih (f.act a))

/-- What holds of documents without views and is kept by every move holds of every reachable
    forest. -/
theorem Reachable.induction {P : Forest → Prop} (start : ∀ documents, P (ofDocuments documents))
    (move : ∀ f g, Move f g → P f → P g) {f : Forest} (h : f.Reachable) : P f := by
  rcases h with ⟨documents, actions, hrun⟩
  -- Only the moves of the run matter from here on.
  have hmoves := moves_run (ofDocuments documents) actions
  rw [← hrun] at hmoves
  clear hrun
  induction hmoves with
  | refl => exact start documents
  | tail _ hmove ih => exact move _ _ hmove ih

end Forest

end DocTree
