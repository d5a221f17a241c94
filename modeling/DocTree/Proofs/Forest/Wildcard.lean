import Mathlib
import DocTree.Proofs.Candidates
import DocTree.Proofs.Forest.Resolve
import DocTree.Proofs.Forest.Vantage

/-!
# Paths with Wildcards

A path with wildcards is asked for in two ways: as the list of the concrete paths it
resolves through, and as a sequence of the values found. The two agree, and they agree
with what the concrete paths lead to when they are asked for one by one. All three are
read off the survivors that can be seen from the view; asking in between changes nothing
that they depend on.

A concrete path is a text, and asking for it splits that text again. A segment of it may
then be a wildcard, if a key was one, and such a path means something else on its own.

## Main definitions

* `Action.Asks`: asking for paths from a view, and letting go of views.

## Theorems

* `stands_resolve`, `stands_matchingPaths`, `stands_run`: asking keeps the vantage.
* `resolve_of_isWildcard`, `matchingPaths_of_isWildcard`: what asking finds.
* `resolve_of_survivor`: what a concrete path leads to.
* `matchingPaths_agrees_resolve`: the two ways to ask agree, and list real instances.
-/

namespace DocTree

/-- The action asks for paths from this view, or lets go of views. -/
def Action.Asks (n : ViewId) : Action → Prop
  | hold _ => True
  | navigate m (.resolve _ _) => m = n
  | navigate m (.matchingPaths _ _) => m = n
  | _ => False

namespace Forest

variable {t : Vantage} {d : DocumentId} {location : List Key}

/-! ## Asking keeps the vantage -/

/-- Walking keeps the vantage of where it starts. -/
theorem stands_walkSegments (f : Forest) (hf : f.Sound) (n : ViewId)
    (hn : f.Stands t d location n []) (segments : List String) :
    (f.walkSegments n segments).2.Stands t d location n [] :=
  hn.spares hf (finds_walkSegments f hf n [] hn segments).2 (Nat.le_refl _)

/-- Trying all candidates keeps it as well, and so does the new document of what they lead to. -/
theorem stands_expand (f : Forest) (hf : f.Sound) (n : ViewId)
    (hn : f.Stands t d location n []) (path : Path) :
    (f.expand n path).2.Stands t d location n [] := by
  have hsound := sound_looks f _ (looks_survivors f n path) hf
  have hstands := (survivors_eq f hf n hn path).2
  rcases hstands.view with ⟨v, hv, _, _⟩
  exact hstands.mono (extends_looks _ _ (looks_walk _ _)) (vantage_walk _ hsound _ n v hv)

/-- Resolving a path keeps the vantage. -/
theorem stands_resolve (f : Forest) (hf : f.Sound) (n : ViewId)
    (hn : f.Stands t d location n []) (text separator : String) :
    (f.resolve n text separator).2.Stands t d location n [] := by
  unfold resolve
  split
  · exact hn
  · split
    · exact hn
    · dsimp only
      split
      · exact stands_expand f hf n hn _
      · exact stands_walkSegments f hf n hn _

theorem stands_matchingPaths (f : Forest) (hf : f.Sound) (n : ViewId)
    (hn : f.Stands t d location n []) (text separator : String) :
    (f.matchingPaths n text separator).2.Stands t d location n [] := by
  have hresolve := stands_resolve f hf n hn text separator
  unfold matchingPaths
  split
  · exact hn
  · dsimp only
    split
    · split
      · rename_i m g hr
        -- A path without wildcards is listed if it resolves.
        rw [hr] at hresolve
        exact hresolve
      · rename_i g hr
        rw [hr] at hresolve
        exact hresolve
    · exact (survivors_eq f hf n hn _).2

/-- Asking for paths keeps the vantage, however often it is done. -/
theorem stands_run (f : Forest) (hf : f.Sound) (n : ViewId) (hn : f.Stands t d location n [])
    (actions : List Action) (h : ∀ a ∈ actions, a.Asks n) :
    (f.run actions).Sound ∧ (f.run actions).Stands t d location n [] := by
  -- The forest stays sound and the view keeps its vantage, from one action to the next.
  induction actions generalizing f with
  | nil => exact ⟨hf, hn⟩
  | cons a actions ih =>
      rw [List.forall_mem_cons] at h
      have hstep : (f.act a).Stands t d location n [] := by
        cases a with
        | hold ns => exact hn.mono (extends_of_views f _ fun _ => rfl) rfl
        | navigate m query =>
            simp only [act]
            split
            · cases query with
              | resolve text separator =>
                  rw [show m = n from h.1]
                  exact stands_resolve f hf n hn text separator
              | matchingPaths text separator =>
                  rw [show m = n from h.1]
                  exact stands_matchingPaths f hf n hn text separator
              | _ => exact absurd h.1 id
            · exact hn
        | _ => exact absurd h.1 id
      exact ih (f.act a) (sound_moves f _ (moves_act f a) hf) hstep h.2

/-! ## What asking finds -/

/-- A path with wildcards resolves to a sequence of what its survivors lead to. -/
theorem resolve_of_isWildcard (f : Forest) (hf : f.Sound) (n : ViewId)
    (hn : f.Stands t d location n []) (text separator : String) (htext : text ≠ Path.wildcard)
    (hpath : (Path.parse text separator).isWildcard = true) :
    ∃ m g, f.resolve n text separator = (some m, g) ∧
      g.value m = .sequence ((t.survivors (Path.parse text separator)).map Prod.snd) := by
  have hempty : text ≠ "" := by
    rintro rfl
    simp [Path.isWildcard, Path.segments_empty, Path.wildcard] at hpath
  have hvalues :=
    congrArg (List.map Prod.snd) (survivors_eq f hf n hn (Path.parse text separator)).1
  -- The values of the survivors go into a new document, and the view of that is what is found.
  rw [List.map_map] at hvalues
  refine ⟨(f.expand n (Path.parse text separator)).1, (f.expand n (Path.parse text separator)).2,
    ?_, ?_⟩
  · simp only [resolve, String.isEmpty_iff, hempty, htext, if_false, hpath, if_true]
  · rw [← hvalues]
    exact congrArg Vantage.value (stands_walk _ _).vantage

/-- The paths that are listed are those of the survivors. -/
theorem matchingPaths_of_isWildcard (f : Forest) (hf : f.Sound) (n : ViewId)
    (hn : f.Stands t d location n []) (text separator : String) (htext : text ≠ Path.wildcard)
    (hpath : (Path.parse text separator).isWildcard = true) :
    (f.matchingPaths n text separator).1
      = (t.survivors (Path.parse text separator)).map Prod.fst := by
  have hempty : text ≠ "" := by
    rintro rfl
    simp [Path.isWildcard, Path.segments_empty, Path.wildcard] at hpath
  have hpaths := congrArg (List.map Prod.fst) (survivors_eq f hf n hn (Path.parse text separator)).1
  rw [List.map_map] at hpaths
  rw [← hpaths]
  simp only [matchingPaths, String.isEmpty_iff, hempty, htext, hpath, if_false, not_true_eq_false,
    or_self]
  rfl

/-- A concrete path leads to the value that it is listed with, unless it has a wildcard itself. -/
theorem resolve_of_survivor (f : Forest) (hf : f.Sound) (n : ViewId)
    (hn : f.Stands t d location n []) (text separator : String) (htext : text ≠ Path.wildcard)
    (hpath : (Path.parse text separator).isWildcard = true) (candidate : String) (v : Value)
    (h : (candidate, v) ∈ t.survivors (Path.parse text separator))
    (hplain : ∀ s ∈ (Path.parse candidate separator).segments, s ≠ Path.wildcard) :
    ∃ m g, f.resolve n candidate separator = (some m, g) ∧ g.value m = v := by
  rcases t.mem_survivors _ candidate v h with ⟨_, hlength, place, hwalk, rfl⟩
  have hlong : 1 < (Path.parse candidate separator).segments.length := by
    rw [show (Path.parse candidate separator).segments.length = _ from hlength]
    exact Path.one_lt_length_of_isWildcard text separator htext hpath
  -- The texts that are not walked have one segment only.
  have hresolve := resolve_of_not_isWildcard f n candidate separator
    (by
      rintro rfl
      rw [Path.segments_empty] at hlong
      exact absurd hlong (Nat.lt_irrefl 1))
    (by
      rintro rfl
      rw [Path.segments_wildcard _ (Path.separator_ne_wildcard text separator hpath)] at hlong
      exact absurd hlong (Nat.lt_irrefl 1))
    (by simpa only [Path.isWildcard, List.any_eq_false, decide_eq_true_eq] using hplain)
  have hfinds := (finds_walkSegments f hf n [] hn (Path.parse candidate separator).segments).1
  rw [Finds, show t.walk? [] (Path.parse candidate separator).segments = some place from hwalk,
    ← hresolve] at hfinds
  cases hr : f.resolve n candidate separator with
  | mk r g =>
      rw [hr] at hfinds
      cases hfinds with
      | some hm => exact ⟨_, g, rfl, congrArg Vantage.value hm.vantage⟩

/-- A path with wildcards resolves to the sequence of what its concrete paths lead to, one by one
    and in their order, and to the same when it is asked for again. For a separator of one
    character, each concrete path has the segments of the path but for wildcards. If the keys that
    are seen and those below are distinct and canonical, none is listed twice. -/
theorem matchingPaths_agrees_resolve {f : Forest} (hf : f.Reachable) (n : ViewId)
    (hn : n < f.views.size) (text separator : String) (htext : text ≠ Path.wildcard)
    (hpath : (Path.parse text separator).isWildcard = true) :
    let paths := (f.matchingPaths n text separator).1
    (∃ values : List Value, values.length = paths.length ∧
      ∀ actions : List Action, (∀ a ∈ actions, a.Asks n) →
        let g := f.run actions
        (g.matchingPaths n text separator).1 = paths ∧
        (∃ m h, g.resolve n text separator = (some m, h) ∧ h.value m = .sequence values) ∧
        ∀ (i : Nat) (p : String) (v : Value), paths[i]? = some p → values[i]? = some v →
          (∀ s ∈ (Path.parse p separator).segments, s ≠ Path.wildcard) →
          ∃ m h, g.resolve n p separator = (some m, h) ∧ h.value m = v) ∧
    ∀ c : Char, separator.toList = [c] →
      (∀ p ∈ paths, List.Forall₂ (fun raw s => raw ≠ Path.wildcard → s = raw)
        (Path.parse text separator).segments (Path.parse p separator).segments) ∧
      ((f.keys n).Nodup → (∀ key ∈ f.keys n, key.Canonical) → (f.value n).WellKeyed →
        (f.value n).Fits → paths.Nodup) := by
  intro paths
  rcases Option.isSome_iff_exists.mp (show (f.view? n).isSome from by simpa [view?] using hn) with
    ⟨v, hv⟩
  have hstands := stands_self f n v hv
  have hpaths : paths = _ :=
    matchingPaths_of_isWildcard f hf.sound n hstands text separator htext hpath
  refine ⟨⟨((f.vantage n).survivors (Path.parse text separator)).map Prod.snd, ?_, ?_⟩, ?_⟩
  · rw [hpaths, List.length_map, List.length_map]
  · -- After any such actions the same is seen from the view, so the same survives.
    intro actions hactions g
    rcases stands_run f hf.sound n hstands actions hactions with ⟨hsound, hg⟩
    refine ⟨?_, resolve_of_isWildcard g hsound n hg text separator htext hpath, ?_⟩
    · rw [hpaths, matchingPaths_of_isWildcard g hsound n hg text separator htext hpath]
    · intro i p u hp hu hplain
      -- The path and the value at one index come from one survivor.
      rw [hpaths, List.getElem?_map, Option.map_eq_some_iff] at hp
      rw [List.getElem?_map, Option.map_eq_some_iff] at hu
      rcases hp with ⟨⟨p', u'⟩, hi, rfl⟩
      rcases hu with ⟨⟨p'', u''⟩, hi', rfl⟩
      rw [hi, Option.some.injEq, Prod.mk.injEq] at hi'
      rw [← hi'.2]
      exact resolve_of_survivor g hsound n hg text separator htext hpath p' u'
        (List.mem_of_getElem? hi) hplain
  · intro c hc
    refine ⟨fun p hp => ?_, fun hnodup hcanonical hkeyed hfits => ?_⟩
    · rw [hpaths, List.mem_map] at hp
      rcases hp with ⟨⟨p, u⟩, hmem, rfl⟩
      exact Vantage.segments_of_mem_survivors _ _ c hc (Path.segments_ne_nil text separator) p u
        hmem
    · rw [hpaths]
      exact Vantage.nodup_survivors ⟨hnodup, hcanonical, hkeyed, hfits⟩ _ c hc
        (Path.segments_ne_nil text separator)

/-- Two wildcards lead to the 7 that the remembered view of its container has not seen. Of one
    wildcard and a segment behind it the paths have that segment, and none is listed twice. -/
theorem wildcards_over_unseen_scalar :
    (aliased.Reachable ∧ 0 < aliased.views.size ∧ "*/*" ≠ Path.wildcard ∧
      (Path.parse "*/*" "/").isWildcard = true ∧
      (aliased.matchingPaths 0 "*/*" "/").1 = ["a/0"] ∧
      ∃ v, (∃ m h, aliased.resolve 0 "*/*" "/" = (some m, h) ∧ h.value m = .sequence [v]) ∧
        ∃ m h, aliased.resolve 0 "a/0" "/" = (some m, h) ∧ h.value m = v) ∧
    let t := Tree.object [("a", .list [.integer 1, .integer 2]), ("b", .list [.integer 3])]
    let f := (ofDocuments [.ofTree t]).run [.root 0]
    f.Reachable ∧ 0 < f.views.size ∧ "*/0" ≠ Path.wildcard ∧
      (Path.parse "*/0" "/").isWildcard = true ∧ "/".toList = ['/'] ∧
      (f.matchingPaths 0 "*/0" "/").1 = ["a/0", "b/0"] ∧
      (∀ p ∈ ["a/0", "b/0"], List.Forall₂ (fun raw s => raw ≠ Path.wildcard → s = raw)
        (Path.parse "*/0" "/").segments (Path.parse p "/").segments) ∧
      (f.keys 0).Nodup ∧ (∀ key ∈ f.keys 0, key.Canonical) ∧ (f.value 0).WellKeyed ∧
      (f.value 0).Fits ∧ ["a/0", "b/0"].Nodup := by
  constructor
  · have hpaths : (aliased.matchingPaths 0 "*/*" "/").1 = ["a/0"] := by decide +kernel
    rcases (matchingPaths_agrees_resolve reachable_aliased 0 (by decide) "*/*" "/" (by decide)
      (by decide)).1 with ⟨values, hlength, hasked⟩
    rcases hasked [] (fun a ha => absurd ha List.not_mem_nil) with ⟨_, hresolve, hsingle⟩
    rw [hpaths] at hlength hsingle
    rcases List.length_eq_one_iff.mp hlength with ⟨v, rfl⟩
    exact ⟨reachable_aliased, by decide, by decide, by decide, hpaths, v, hresolve,
      hsingle 0 "a/0" v rfl rfl (by decide)⟩
  · intro t f
    have hf : f.Reachable := ⟨[.ofTree t], [.root 0], rfl⟩
    have hpaths : (f.matchingPaths 0 "*/0" "/").1 = ["a/0", "b/0"] := by decide +kernel
    have hnodup : (f.keys 0).Nodup := by decide +kernel
    have hcanonical : ∀ key ∈ f.keys 0, key.Canonical := by decide +kernel
    have hkeyed : (f.value 0).WellKeyed := Value.wellKeyed_ofTree t (by decide +kernel)
    have hfits : (f.value 0).Fits := by decide +kernel
    rcases (matchingPaths_agrees_resolve hf 0 (by decide) "*/0" "/" (by decide) (by decide)).2 '/'
      rfl with ⟨hsegments, hdistinct⟩
    rw [hpaths] at hsegments hdistinct
    exact ⟨hf, by decide, by decide, by decide, rfl, hpaths, hsegments, hnodup, hcanonical, hkeyed,
      hfits, hdistinct hnodup hcanonical hkeyed hfits⟩

end Forest

end DocTree
