import Mathlib
import DocTree.Proofs.DeepWrite
import DocTree.Proofs.Forest.Resolve

/-!
# Deep Writes Through a View

Setting a path writes the slot at the location that its keys name, below the slot of
the view. This module says what that means for everything else that can be read
through the view, and that the path then leads to the written value.

The last part does not follow from the first alone. A path is walked through views
that were handed out before, and such a view may have seen another container in its
slot, or even a scalar. It is brought up to date when it is fetched, so the walk only
needs the first key to be in the snapshot of the view that has written, and that
snapshot has just been loaded.

## Main definitions

* `Forest.DeeplyWritten`: the effect of a deep write on what a view looks at.

## Theorems

* `set_of_holds`: setting a path is a write of the slot of the view.
* `documents_write_write`: of two writes through a view only the second is seen.
* `resolve_of_plain`: a path of plain keys is walked.
* `set_isDeepWrite`: setting a path is a deep write, and resolving the path undoes it.
-/

namespace DocTree

namespace Forest

/-- Going from `f` to `g` puts `w` at a location below the slot of the view `n`. -/
structure DeeplyWritten (f g : Forest) (n : ViewId) (location : List Key) (w : Value) :
    Prop where
  written : (g.value n).lookup location = some w
  /-- What parts from the location is as before. -/
  frame : ∀ q, Value.Incomparable location q → (g.value n).lookup q = (f.value n).lookup q
  /-- A container on the way keeps its keys in their order and gets at most one more, which
      is then the last. -/
  onTheWay : ∀ p e, p <+: location → p ≠ location →
    (f.value n).lookup p = some (.container e) →
    ∃ e', (g.value n).lookup p = some (.container e') ∧
      (Entries.keys e' = Entries.keys e ∨
        ∃ key, key ∉ Entries.keys e ∧ Entries.keys e' = Entries.keys e ++ [key])

/-- Setting a path without empty segments is a write of the slot of the view. -/
theorem set_of_holds (f : Forest) (n : ViewId) (v : View) (c : Entries Value)
    (h : f.Holds n v c) (text separator : String) (w : Value)
    (hpath : ∀ s ∈ (Path.parse text separator).segments, s ≠ "") :
    f.set n text w separator
      = (some (), (f.write n (.container
          (c.setPath ((Path.parse text separator).segments.map Key.parse) w))).reload n) := by
  have hc : f.container? n = some c := (container?_eq_some_iff f n c).mpr ⟨v, h⟩
  have hany : (Path.parse text separator).segments.any String.isEmpty = false := by
    simpa only [List.any_eq_false, String.isEmpty_iff] using hpath
  simp only [set, hany, Bool.false_eq_true, if_false, Mutation.mutate_of_container? f n c hc]

/-- Of two writes through a view only the second is seen in the documents. -/
theorem documents_write_write (f : Forest) (n : ViewId) (v : View) (c d e : Entries Value)
    (h : f.Holds n v c) :
    (((f.write n (.container d)).reload n).write n (.container e)).documents
      = (f.write n (.container e)).documents := by
  have htwice := congrArg documents (reload_write_reload_write (d := d) (e := e) h)
  rwa [reload_eq_update _ n, documents_update, reload_eq_update (f.write n (.container e)) n,
    documents_update] at htwice

/-- A path without a wildcard, and without an empty segment, is walked. -/
theorem resolve_of_plain (f : Forest) (n : ViewId) (text separator : String)
    (hpath : ∀ s ∈ (Path.parse text separator).segments, s ≠ "" ∧ s ≠ Path.wildcard) :
    f.resolve n text separator = f.walkSegments n (Path.parse text separator).segments := by
  have hne := Path.ne_of_segments text separator hpath
  refine resolve_of_not_isWildcard f n text separator hne.1 hne.2 ?_
  simp only [Path.isWildcard, List.any_eq_false, decide_eq_true_eq]
  exact fun s hs => (hpath s hs).2

/-- Writing the result of a deep write puts the value at its location below the slot, and changes
    nothing that parts from it. -/
theorem deeplyWritten_write (f : Forest) (n : ViewId) (v : View) (c : Entries Value)
    (h : f.Holds n v c) (location : List Key) (hlocation : location ≠ []) (w : Value) :
    f.DeeplyWritten ((f.write n (.container (c.setPath location w))).reload n) n location w := by
  have hbefore : f.value n = .container c := h.value
  have hafter : ((f.write n (.container (c.setPath location w))).reload n).value n
      = .container (c.setPath location w) :=
    ((rewritten_write f n v c _ h).holds h).value
  refine ⟨?_, ?_, ?_⟩
  · rw [hafter]
    exact Entries.lookup_setPath_self c location w hlocation
  · intro q hq
    rw [hafter, hbefore]
    exact Entries.lookup_setPath_incomparable c location q w hq
  · rintro p e ⟨q, rfl⟩ hne he
    have hq : q ≠ [] := fun hq => hne (by rw [hq, List.append_nil])
    rw [hbefore] at he
    -- A container on the way has what is left of the location set in it.
    refine ⟨Entries.setPath e q w, ?_, ?_⟩
    · rw [hafter]
      exact Entries.lookup_setPath_append c e p q w he hq
    · cases q with
      | nil => exact absurd rfl hq
      | cons key q =>
          rw [Entries.keys_setPath]
          by_cases hkey : key ∈ Entries.keys e
          · exact Or.inl (if_pos hkey)
          · exact Or.inr ⟨key, hkey, if_neg hkey⟩

/-- In a forest where remembered children look where they should, a deep write through a view
    leaves a forest in which its location can be walked from that view. -/
theorem walkSegments_of_write (f : Forest) (hf : f.Linked) (n : ViewId) (v : View)
    (c : Entries Value) (h : f.Holds n v c) (raw : String) (rest : List String) (w : Value)
    (hplain : ∀ s ∈ raw :: rest, (Segment.parse s).clause = none) :
    let g := (f.write n (.container (c.setPath ((raw :: rest).map Key.parse) w))).reload n
    ∃ m g', g.walkSegments n (raw :: rest) = (some m, g') ∧ g'.value m = w := by
  intro g
  have hg := rewritten_write f n v c (c.setPath ((raw :: rest).map Key.parse) w) h
  have hholds := hg.holds h
  have hlinked : g.Linked :=
    linked_move _ _ (.look _ _ (.load _ n)) (linked_move _ _ (.write f n v c _ h) hf)
  -- The snapshot has just been loaded, so it has the first key.
  have hkey : Key.parse raw ∈ g.keys n := by
    rw [hg.keys, List.map_cons, Entries.keys_setPath]
    split
    · assumption
    · simp
  rcases walkSegments_of_slot raw rest g n _ w hlinked hholds.view hplain hkey (by
      rw [slotAt?_append, hholds.slot, Option.bind_some]
      exact Entries.lookup_setPath_self c _ w (by simp)) with ⟨m, g', hwalk, _, hshows⟩
  exact ⟨m, g', hwalk, hshows.value⟩

/-- Setting a path through a view of a container is a deep write at the location that the keys of
    the path name. Of two values set at one path only the second is seen. A path of plain keys then
    leads to the value, however stale the views on the way were. -/
theorem set_isDeepWrite {f : Forest} (hf : f.Reachable) (n : ViewId) (view : View)
    (c : Entries Value) (h : f.Holds n view c) (text separator : String)
    (hpath : ∀ s ∈ (Path.parse text separator).segments, s ≠ "") (v w : Value) :
    let location := (Path.parse text separator).segments.map Key.parse
    let g := (f.set n text v separator).2
    (f.set n text v separator).1 = some () ∧
      f.DeeplyWritten g n location v ∧
      (g.set n text w separator).2.documents = (f.set n text w separator).2.documents ∧
      ((∀ s ∈ (Path.parse text separator).segments,
          s ≠ Path.wildcard ∧ (Segment.parse s).clause = none) →
        ∃ m g', g.resolve n text separator = (some m, g') ∧ g'.value m = v) := by
  intro location g
  have hset := fun u => set_of_holds f n view c h text separator u hpath
  have hlocation : location ≠ [] := by
    simpa [location] using Path.segments_ne_nil text separator
  have hg : g = (f.write n (.container (c.setPath location v))).reload n := by
    simp only [g, hset, location]
  have hholds := (rewritten_write f n view c (c.setPath location v) h).holds h
  refine ⟨by rw [hset], ?_, ?_, fun hplain => ?_⟩
  · rw [hg]
    exact deeplyWritten_write f n view c h location hlocation v
  · rw [hg, set_of_holds _ n _ _ hholds text separator w hpath, hset,
      Entries.setPath_setPath c location v w]
    exact documents_write_write f n view c _ _ h
  · rw [resolve_of_plain g n text separator fun s hs => ⟨hpath s hs, (hplain s hs).1⟩, hg]
    -- The walk starts with a segment, as no path is without one.
    cases hsegments : (Path.parse text separator).segments with
    | nil => exact absurd hsegments (Path.segments_ne_nil text separator)
    | cons raw rest =>
        have hplain' : ∀ s ∈ raw :: rest, (Segment.parse s).clause = none :=
          fun s hs => (hplain s (by rw [hsegments]; exact hs)).2
        have hwalk := walkSegments_of_write f hf.linked n view c h raw rest v hplain'
        simpa only [location, hsegments] using hwalk

/-- The root of `aliased` has handed out a view that has not seen the 7 under `a`. A deep write
    through the root puts a container in the place of the 7, and the path to the new value leads
    through that view. -/
theorem set_over_unseen_scalar :
    let root : View :=
      ⟨0, [], none, none, .container (Snapshot.ofKeys [.name "a"]) [(.name "a", 1)]⟩
    let g := (aliased.set 0 "a/0/x" (.bool true) "/").2
    aliased.Reachable ∧
      aliased.Holds 0 root [(.name "a", .container [(.index 0, .int 7)])] ∧
      (∀ s ∈ (Path.parse "a/0/x" "/").segments, s ≠ "") ∧
      aliased.DeeplyWritten g 0 [.name "a", .index 0, .name "x"] (.bool true) ∧
      ∃ m g', g.resolve 0 "a/0/x" "/" = (some m, g') ∧ g'.value m = .bool true := by
  intro root g
  have hholds : aliased.Holds 0 root [(.name "a", .container [(.index 0, .int 7)])] :=
    ⟨rfl, rfl, rfl⟩
  have hpath : ∀ s ∈ (Path.parse "a/0/x" "/").segments, s ≠ "" := by decide
  have hset := set_isDeepWrite reachable_aliased 0 root _ hholds "a/0/x" "/" hpath
    (.bool true) .null
  exact ⟨reachable_aliased, hholds, hpath, hset.2.1, hset.2.2.2 (by decide)⟩

end Forest

end DocTree
