import Mathlib
import DocTree.Proofs.Reach
import DocTree.Proofs.Forest.Wildcard

/-!
# Paths with a Single Wildcard

A path with a single wildcard asks for the children of one view, the one that the segments
before the wildcard lead to. The children are found once while the candidates are put
together, and every candidate is then resolved anew from where the query started. Both
times the same places are met, because both see the same vantage; so the candidates that
resolve are those whose child the remaining segments lead on from, in the order of the
keys of that view.

The texts of the keys have to survive on the way: a key with the separator in its text,
or a text that is a selector clause, is a different path.

## Main definitions

* `Forest.follow`: the view that segments lead to, none of them to where they start.
* `Forest.branch`: the view that a child and then segments lead to.

## Theorems

* `coherent_vantage`: no view of a leaf shows keys.
* `finds_follow`, `finds_branch`: they find what can be seen.
* `survivors_of_follow_leaf`, `survivors_of_follow`: the candidates that survive.
* `singleWildcard_exact`: what a path with one wildcard lists, and what it resolves to.
-/

namespace DocTree

namespace Forest

/-- The view that segments lead to. None of them lead to the view where they start. -/
def follow (f : Forest) (n : ViewId) : List String → Option ViewId × Forest
  | [] => (some n, f)
  | raw :: rest => f.walkSegments n (raw :: rest)

/-- The view that the child under a key leads to, and then segments from there. -/
def branch (f : Forest) (n : ViewId) (key : Key) (segments : List String) :
    Option ViewId × Forest :=
  match f.child n key with
  | (some c, f) => f.follow c segments
  | (none, f) => (none, f)

/-- A view of a leaf has no snapshot, and so it shows no keys. -/
theorem coherent_vantage (f : Forest) (n : ViewId) : (f.vantage n).Coherent := by
  intro hleaf
  change f.keys n = []
  cases hv : f.view? n with
  | none => rw [keys, snapshot?, hv, Option.bind_none, Option.map_none, Option.getD_none]
  | some v =>
      have hkind : v.isContainer = false := by
        rw [← isContainer_of_view? f n v hv]
        exact hleaf
      rw [keys, snapshot?_of_view? f n v hv]
      cases hs : v.snapshot? with
      | none => rfl
      | some s => exact absurd (View.isContainer_of_snapshot? v s hs) (by simp [hkind])

variable {t : Vantage} {d : DocumentId} {location : List Key}

/-! ## Following segments -/

/-- Following segments finds what can be reached along them. -/
theorem finds_follow (f : Forest) (hf : f.Sound) (ht : t.Coherent) (m : ViewId)
    (place : List Key) (h : f.Stands t d location m place) (segments : List String) :
    Finds t d location (f.follow m segments) (t.reach? place segments) := by
  -- Without segments it stays where it is; otherwise it walks, and finds the same from a coherent
  -- vantage.
  cases segments with
  | nil => exact .some h
  | cons raw rest =>
      rw [follow, ← Vantage.walk?_eq_reach? ht]
      exact (finds_walkSegments f hf m place h (raw :: rest)).1

theorem sound_follow (f : Forest) (hf : f.Sound) (n : ViewId) (segments : List String) :
    (f.follow n segments).2.Sound := by
  cases segments with
  | nil => exact hf
  | cons raw rest => exact sound_looks f _ (looks_of_glances f _ (glances_walkSegments f n _)) hf

/-- A branch finds what can be reached by way of its child. -/
theorem finds_branch (f : Forest) (hf : f.Sound) (ht : t.Coherent) (m : ViewId)
    (place : List Key) (h : f.Stands t d location m place) (key : Key) (segments : List String) :
    Finds t d location (f.branch m key segments) (t.branch? place key segments) := by
  have hchild := finds_child f hf m place h key
  have hsound := sound_looks f _ (looks_of_glances f _ (glances_child f m key)) hf
  rw [branch, Vantage.branch?]
  cases hfetch : f.child m key with
  | mk r g =>
      rw [hfetch] at hchild hsound
      cases hplace : t.child? place key with
      | none =>
          rw [hplace] at hchild
          cases hchild
          exact .none
      | some q =>
          rw [hplace] at hchild
          cases hchild with
          | some hc => exact finds_follow g hsound ht _ q hc segments

/-! ## A single wildcard -/

/-- The view that a query came to, if it should have come to a place. -/
theorem Finds.exists_stands {m : ViewId} {g : Forest} {r : Option ViewId × Forest}
    {place : Option (List Key)} (h : Finds t d location r place) (hr : r = (some m, g)) :
    ∃ q, place = some q ∧ g.Stands t d location m q := by
  rw [hr] at h
  cases h with
  | some hm => exact ⟨_, rfl, hm⟩

/-- What a branch leads to is seen at its place. -/
theorem map_value_branch (f : Forest) (hf : f.Sound) (ht : t.Coherent) (m : ViewId)
    (place : List Key) (h : f.Stands t d location m place) (key : Key) (segments : List String) :
    (f.branch m key segments).1.map (f.branch m key segments).2.value
      = (t.branch? place key segments).map fun q => (t.below q).value := by
  -- The branch is found where the vantage has it, or not at all in both.
  have hfinds := finds_branch f hf ht m place h key segments
  cases hbranch : f.branch m key segments with
  | mk r g =>
      rw [hbranch] at hfinds
      cases hplace : t.branch? place key segments with
      | none =>
          rw [hplace] at hfinds
          cases hfinds
          rfl
      | some q =>
          rw [hplace] at hfinds
          cases hfinds with
          | some hc => exact congrArg some (congrArg Vantage.value hc.vantage)

/-- If the segments before the only wildcard lead to no container, nothing survives. -/
theorem survivors_of_follow_leaf (f : Forest) (hf : f.Sound) (ht : t.Coherent) (n : ViewId)
    (hn : f.Stands t d location n []) (path : Path) (before after : List String)
    (hsegments : path.segments = before ++ Path.wildcard :: after)
    (hbefore : Path.wildcard ∉ before) (hafter : Path.wildcard ∉ after)
    (hleaf : ∀ m, (f.follow n before).1 = some m →
      (f.follow n before).2.isContainer m = false) : t.survivors path = [] := by
  refine t.survivors_of_single_of_leaf ht path before after hsegments hbefore hafter fun q hq => ?_
  have hfollow := finds_follow f hf ht n [] hn before
  rw [Finds, hq] at hfollow
  -- The view that is followed to has the kind that is seen at its place.
  cases hr : (f.follow n before).1 with
  | none =>
      rw [hr] at hfollow
      cases hfollow
  | some m =>
      rw [hr] at hfollow
      cases hfollow with
      | some hm => exact (congrArg Vantage.isContainer hm.vantage).symm.trans (hleaf m hr)

/-- Behind the keys of the view that the segments before the only wildcard lead to, those candidates
    survive of which the branch leads on. -/
theorem survivors_of_follow (f : Forest) (hf : f.Sound) (ht : t.Coherent) (n : ViewId)
    (hn : f.Stands t d location n []) (text separator : String) (c : Char)
    (hseparator : separator.toList = [c]) (before after : List String)
    (hsegments : (Path.parse text separator).segments = before ++ Path.wildcard :: after)
    (hbefore : Path.wildcard ∉ before) (hafter : Path.wildcard ∉ after) (m : ViewId) (g : Forest)
    (hm : f.follow n before = (some m, g)) (hkeys : ∀ key ∈ g.keys m, key.Unambiguous c) :
    t.survivors (Path.parse text separator)
      = (g.keys m).filterMap fun key =>
          ((g.branch m key after).1.map (g.branch m key after).2.value).map fun v =>
            (Path.join (before ++ key.text :: after) separator, v) := by
  have hg : g.Sound := by
    have hsound := sound_follow f hf n before
    rwa [hm] at hsound
  rcases (finds_follow f hf ht n [] hn before).exists_stands hm with ⟨q, hreach, hstands⟩
  have hkeysm : g.keys m = (t.below q).keys := congrArg Vantage.keys hstands.vantage
  rw [hkeysm] at hkeys ⊢
  rw [t.survivors_of_single ht text separator c hseparator before after hsegments hbefore hafter q
    hreach hkeys]
  refine List.filterMap_congr fun key _ => ?_
  rw [map_value_branch g hg ht m q hstands key after, Option.map_map]
  rfl

/-- The wildcard stands for the keys of the view that the segments before it lead to. If that is
    no container, the path matches nothing. If it is one, and if no key of it has a text that means
    something else in a path, the path matches once for each child that the segments after the
    wildcard lead on from, in the order of the keys. -/
theorem singleWildcard_exact {f : Forest} (hf : f.Reachable) (n : ViewId)
    (hn : n < f.views.size) (text separator : String) (c : Char)
    (hseparator : separator.toList = [c]) (before after : List String)
    (hsegments : (Path.parse text separator).segments = before ++ Path.wildcard :: after)
    (hlong : before ++ after ≠ []) (hbefore : Path.wildcard ∉ before)
    (hafter : Path.wildcard ∉ after) :
    let g := (f.follow n before).2
    ((∀ m, (f.follow n before).1 = some m → g.isContainer m = false) →
      (f.matchingPaths n text separator).1 = [] ∧
      ∃ r h, f.resolve n text separator = (some r, h) ∧ h.value r = .container []) ∧
    ∀ m, (f.follow n before).1 = some m →
      (∀ key ∈ g.keys m, key.Unambiguous c) →
      (f.matchingPaths n text separator).1
        = ((g.keys m).filter fun key => (g.branch m key after).1.isSome).map (fun key =>
            Path.join (before ++ key.text :: after) separator) ∧
      (∃ r h, f.resolve n text separator = (some r, h) ∧
        h.value r = .sequence ((g.keys m).filterMap fun key =>
          (g.branch m key after).1.map (g.branch m key after).2.value)) ∧
      ((g.keys m).Nodup → (f.matchingPaths n text separator).1.Nodup) := by
  intro g
  rcases Option.isSome_iff_exists.mp (show (f.view? n).isSome from by simpa [view?] using hn) with
    ⟨v, hv⟩
  have hstands := stands_self f n v hv
  have ht := coherent_vantage f n
  -- The path has another segment, so it is not the wildcard alone.
  have hpath : (Path.parse text separator).isWildcard = true := by
    rw [Path.isWildcard, hsegments, List.any_eq_true]
    exact ⟨Path.wildcard, by simp, by simp⟩
  have htext : text ≠ Path.wildcard := by
    rintro rfl
    rw [Path.segments_wildcard _ (Path.separator_ne_wildcard _ separator hpath)] at hsegments
    have hlength := congrArg List.length hsegments
    have hpositive := List.length_pos_iff.mpr hlong
    simp only [List.length_append, List.length_cons, List.length_nil] at hlength hpositive
    omega
  have hpaths := matchingPaths_of_isWildcard f hf.sound n hstands text separator htext hpath
  have hresolve := resolve_of_isWildcard f hf.sound n hstands text separator htext hpath
  refine ⟨fun hleaf => ?_, fun m hm hkeys => ?_⟩
  · rw [survivors_of_follow_leaf f hf.sound ht n hstands _ before after hsegments hbefore hafter
      hleaf] at hpaths hresolve
    exact ⟨hpaths, hresolve⟩
  · rw [survivors_of_follow f hf.sound ht n hstands text separator c hseparator before after
      hsegments hbefore hafter m g (Prod.ext hm rfl) hkeys] at hpaths hresolve
    -- Only the candidates whose branch leads on survive, and the filter keeps those.
    have hlisted : (f.matchingPaths n text separator).1
        = ((g.keys m).filter fun key => (g.branch m key after).1.isSome).map (fun key =>
            Path.join (before ++ key.text :: after) separator) := by
      rw [hpaths, List.map_filterMap, ← List.filterMap_eq_map, List.filterMap_filter]
      refine List.filterMap_congr fun key _ => ?_
      cases (g.branch m key after).1 <;> rfl
    refine ⟨hlisted, ?_, fun hnodup => ?_⟩
    · rcases hresolve with ⟨r, h, hr, hvalue⟩
      refine ⟨r, h, hr, hvalue.trans (congrArg Value.sequence ?_)⟩
      rw [List.map_filterMap]
      refine List.filterMap_congr fun key _ => ?_
      cases (g.branch m key after).1 <;> rfl
    · rw [hlisted]
      refine List.Nodup.map_on (fun key hkey key' hkey' heq => ?_) (hnodup.filter _)
      have hplain := hkeys key (List.mem_of_mem_filter hkey)
      have hplain' := hkeys key' (List.mem_of_mem_filter hkey')
      -- Equal paths have equal segments, and at the place of the wildcard equal keys.
      have hjoined := hplain.segments_join text separator hseparator before after hsegments
      rw [heq, hplain'.segments_join text separator hseparator before after hsegments,
        List.append_cancel_left_eq, List.cons.injEq] at hjoined
      rw [← hplain.canonical, ← hplain'.canonical, hjoined.1]

/-- Out to a child and back, over its keys, and then to the 7 that the remembered view of that
    child has not seen. -/
theorem singleWildcard_behind_parent :
    aliased.Reachable ∧ 0 < aliased.views.size ∧ "/".toList = ['/'] ∧
      (Path.parse "a::parent()/*/0" "/").segments = ["a::parent()"] ++ Path.wildcard :: ["0"] ∧
      (aliased.matchingPaths 0 "a::parent()/*/0" "/").1 = ["a::parent()/a/0"] ∧
      ∃ r h, aliased.resolve 0 "a::parent()/*/0" "/" = (some r, h) ∧
        h.value r = .sequence [.int 7] := by
  have hsegments :
      (Path.parse "a::parent()/*/0" "/").segments = ["a::parent()"] ++ Path.wildcard :: ["0"] := by
    decide
  have hexact := (singleWildcard_exact reachable_aliased 0 (by decide) "a::parent()/*/0" "/" '/'
    rfl ["a::parent()"] ["0"] hsegments (by decide) (by decide) (by decide)).2 0 (by decide +kernel)
  have hkeys : (aliased.follow 0 ["a::parent()"]).2.keys 0 = [.name "a"] := by decide +kernel
  rw [hkeys] at hexact
  have hunambiguous : ∀ key ∈ [Key.name "a"], key.Unambiguous '/' := by
    intro key hkey
    rw [List.mem_singleton.mp hkey]
    exact ⟨by decide, by decide, by decide⟩
  rcases hexact hunambiguous with ⟨hpaths, ⟨r, h, hr, hvalue⟩, _⟩
  refine ⟨reachable_aliased, by decide, rfl, hsegments, ?_, r, h, hr, ?_⟩
  · rw [hpaths]
    decide +kernel
  · rw [hvalue]
    rfl

end Forest

end DocTree
