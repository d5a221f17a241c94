import Mathlib
import DocTree.Proofs.Path
import DocTree.Proofs.Forest.Linked

/-!
# Paths of Plain Keys

A path without wildcards and selector clauses names a location, one key for each
segment, and resolving it comes down to reading the slot at that location. Only the
first key is looked up in a snapshot that may be stale, that of the view where the
path starts. Every view further on has just been fetched and shows its slot, so its
snapshot holds a key exactly if the slot does.

## Theorems

* `resolve_of_not_isWildcard`: a path without wildcards is walked.
* `walkSegments_of_slot`: a walk to a slot that exists gets there.
* `walkSegments_of_none`: a walk to a slot that does not exist finds nothing.
* `resolve_iff_lookup`: resolving a path of plain keys is reading a location.
-/

namespace DocTree

namespace Forest

/-- Without a clause, a segment leads to the child under its key. -/
theorem get_of_plain (f : Forest) (n : ViewId) (raw : String)
    (h : (Segment.parse raw).clause = none) : f.get n raw = f.child n (Key.parse raw) := by
  have hparse := Segment.parse_of_clause_eq_none raw h
  simp only [get, hparse, Segment.key, Segment.literal, Segment.selector, Option.map_none]
  split
  · rename_i hc
    exact hc.symm
  · rename_i hc
    exact hc.symm

/-- A walk along keys that lead to a slot, the first of them in the snapshot, arrives at a view
    that shows the slot. -/
theorem walkSegments_of_slot (raw : String) (rest : List String) (f : Forest) (n : ViewId)
    (v : View) (u : Value) (hf : f.Linked) (hv : f.view? n = some v)
    (hplain : ∀ s ∈ raw :: rest, (Segment.parse s).clause = none)
    (hkey : Key.parse raw ∈ f.keys n)
    (hslot : f.slotAt? v.document (v.location ++ (raw :: rest).map Key.parse) = some u) :
    ∃ m g, f.walkSegments n (raw :: rest) = (some m, g) ∧ g.documents = f.documents ∧
      g.Shows m v.document (v.location ++ (raw :: rest).map Key.parse) u := by
  induction rest generalizing raw f n v with
  | nil =>
      rw [walkSegments, get_of_plain f n raw (hplain raw List.mem_cons_self)]
      exact shows_child f hf n v (Key.parse raw) u hv hkey hslot
  | cons next rest ih =>
      -- The location goes on below the child of the first segment.
      have hsplit : v.location ++ (raw :: next :: rest).map Key.parse
          = v.location ++ [Key.parse raw] ++ (next :: rest).map Key.parse := by
        simp
      rw [hsplit, slotAt?_append, Option.bind_eq_some_iff] at hslot
      rcases hslot with ⟨x, hx, hu⟩
      rcases shows_child f hf n v (Key.parse raw) x hv hkey hx with ⟨c, g, hchild, hdocs, hshows⟩
      rcases hshows.view with ⟨w, hw, hdocument, hlocation⟩
      have hlinked : g.Linked := by
        have hglances := glances_child f n (Key.parse raw)
        rw [hchild] at hglances
        exact linked_looks f g (looks_of_glances f g hglances) hf
      -- The child has the next key, so it is a container and its snapshot has the key.
      have hnext : (x.child? (Key.parse next)).isSome := by
        simp only [List.map_cons, Value.lookup, Option.bind_eq_some_iff] at hu
        rcases hu with ⟨y, hy, _⟩
        rw [hy]
        rfl
      have hcontainer : g.isContainer c = true := by
        rw [hshows.kind]
        cases x with
        | container e => rfl
        | _ => exact absurd hnext (by simp [Value.child?, Value.entries?])
      have hslot' : g.slotAt? w.document (w.location ++ (next :: rest).map Key.parse) = some u := by
        rw [hdocument, hlocation, slotAt?_append, hshows.slot, Option.bind_some, hu]
      rcases ih next g c w hlinked hw (fun s hs => hplain s (List.mem_cons_of_mem _ hs))
        ((mem_keys_of_shows g c _ _ x hshows _).mpr hnext) hslot' with
        ⟨m, g', hwalk, hdocs', hshows'⟩
      refine ⟨m, g', ?_, hdocs'.trans hdocs, ?_⟩
      · rw [walkSegments, get_of_plain f n raw (hplain raw List.mem_cons_self), hchild]
        simp only [hcontainer, if_true, hwalk]
        exact List.cons_ne_nil _ _
      · rw [hsplit, ← hdocument, ← hlocation]
        exact hshows'

/-- A walk along keys that lead to no slot, or the first of which is not in the snapshot, finds
    nothing. -/
theorem walkSegments_of_none (raw : String) (rest : List String) (f : Forest) (n : ViewId)
    (hf : f.Linked) (hplain : ∀ s ∈ raw :: rest, (Segment.parse s).clause = none)
    (hnone : ∀ v, f.view? n = some v → Key.parse raw ∈ f.keys n →
      f.slotAt? v.document (v.location ++ (raw :: rest).map Key.parse) = none) :
    (f.walkSegments n (raw :: rest)).1 = none := by
  induction rest generalizing raw f n with
  | nil =>
      rw [walkSegments, get_of_plain f n raw (hplain raw List.mem_cons_self),
        child_of_none f n (Key.parse raw) hnone]
  | cons next rest ih =>
      rw [walkSegments, get_of_plain f n raw (hplain raw List.mem_cons_self)]
      · by_cases hchild : ∀ v, f.view? n = some v → Key.parse raw ∈ f.keys n →
            f.slotAt? v.document (v.location ++ [Key.parse raw]) = none
        · rw [child_of_none f n (Key.parse raw) hchild]
        · -- The first segment leads to a child, so it is the rest that leads nowhere.
          push Not at hchild
          rcases hchild with ⟨v, hv, hkey, hslot⟩
          rcases Option.ne_none_iff_exists'.mp hslot with ⟨x, hx⟩
          have hglances := glances_child f n (Key.parse raw)
          rcases shows_child f hf n v (Key.parse raw) x hv hkey hx with
            ⟨c, g, hget, hdocs, hshows⟩
          rw [hget] at hglances ⊢
          rcases hshows.view with ⟨w, hw, hdocument, hlocation⟩
          dsimp only
          split
          · refine ih next g c (linked_looks f g (looks_of_glances f g hglances) hf)
              (fun s hs => hplain s (List.mem_cons_of_mem _ hs)) fun w' hw' _ => ?_
            rw [hw, Option.some.injEq] at hw'
            rw [← hw', hdocument, hlocation, slotAt?, hdocs, ← slotAt?]
            simpa using hnone v hv hkey
          · rfl
      · exact List.cons_ne_nil _ _

/-- A path without wildcards is walked. -/
theorem resolve_of_not_isWildcard (f : Forest) (n : ViewId) (text separator : String)
    (hempty : text ≠ "") (hwildcard : text ≠ Path.wildcard)
    (hany : (Path.parse text separator).isWildcard = false) :
    f.resolve n text separator = f.walkSegments n (Path.parse text separator).segments := by
  simp only [resolve, String.isEmpty_iff, hempty, hwildcard, if_false, hany, Bool.false_eq_true]

/-- In a reachable forest, resolving a path of plain keys is reading the slot at the location
    that its keys name, once the first key is in the snapshot of the view where it starts. The
    view it leads to shows that slot, however stale the views on the way were. -/
theorem resolve_iff_lookup {f : Forest} (hf : f.Reachable) (n : ViewId) (text separator : String)
    (hempty : text ≠ "") (hwildcard : text ≠ Path.wildcard)
    (hplain : ∀ s ∈ (Path.parse text separator).segments,
      s ≠ Path.wildcard ∧ (Segment.parse s).clause = none) :
    let location := (Path.parse text separator).segments.map Key.parse
    ((f.resolve n text separator).1.isSome ↔
      (∃ key, location.head? = some key ∧ key ∈ f.keys n) ∧
        ((f.value n).lookup location).isSome) ∧
    ∀ m g, f.resolve n text separator = (some m, g) →
      ∃ v u, f.view? n = some v ∧ (f.value n).lookup location = some u ∧
        g.documents = f.documents ∧ g.Shows m v.document (v.location ++ location) u := by
  -- Nothing in the path is special, so it is just walked.
  have hresolve : f.resolve n text separator
      = f.walkSegments n (Path.parse text separator).segments := by
    have hany : (Path.parse text separator).isWildcard = false := by
      simp only [Path.isWildcard, List.any_eq_false, decide_eq_true_eq]
      exact fun s hs => (hplain s hs).1
    simp only [resolve, String.isEmpty_iff, hempty, hwildcard, if_false, hany,
      Bool.false_eq_true]
  rw [hresolve]
  cases hsegments : (Path.parse text separator).segments with
  | nil => exact absurd hsegments (Path.segments_ne_nil text separator)
  | cons raw rest =>
      have hplain' : ∀ s ∈ raw :: rest, (Segment.parse s).clause = none :=
        fun s hs => (hplain s (by rw [hsegments]; exact hs)).2
      dsimp only
      by_cases hfound : ∃ v u, f.view? n = some v ∧ Key.parse raw ∈ f.keys n ∧
          f.slotAt? v.document (v.location ++ (raw :: rest).map Key.parse) = some u
      · rcases hfound with ⟨v, u, hv, hkey, hslot⟩
        have hlookup : (f.value n).lookup ((raw :: rest).map Key.parse) = some u := by
          rw [List.map_cons, lookup_value f n v hv, ← List.map_cons, hslot]
        rcases walkSegments_of_slot raw rest f n v u hf.linked hv hplain' hkey hslot with
          ⟨m, g, hwalk, hdocs, hshows⟩
        rw [hwalk, hlookup]
        refine ⟨⟨fun _ => ⟨⟨_, rfl, hkey⟩, rfl⟩, fun _ => rfl⟩, fun m' g' heq => ?_⟩
        rw [Prod.mk.injEq, Option.some.injEq] at heq
        rw [← heq.1, ← heq.2]
        exact ⟨v, u, hv, rfl, hdocs, hshows⟩
      · -- No slot, or a first key that the snapshot does not have: the walk finds nothing.
        have hnone : (f.walkSegments n (raw :: rest)).1 = none := by
          refine walkSegments_of_none raw rest f n hf.linked hplain' fun v hv hkey => ?_
          rw [Option.eq_none_iff_forall_ne_some]
          exact fun u hslot => hfound ⟨v, u, hv, hkey, hslot⟩
        refine ⟨⟨fun hsome => ?_, fun h => ?_⟩, fun m g heq => ?_⟩
        · rw [hnone] at hsome
          exact absurd hsome (by simp)
        · rcases h with ⟨⟨key, hhead, hkey⟩, hsome⟩
          rw [List.map_cons, List.head?_cons, Option.some.injEq] at hhead
          rcases exists_view?_of_mem_keys f n key hkey with ⟨v, hv⟩
          rcases Option.isSome_iff_exists.mp hsome with ⟨u, hu⟩
          rw [List.map_cons, lookup_value f n v hv, ← List.map_cons] at hu
          exact absurd ⟨v, u, hv, by rw [hhead]; exact hkey, hu⟩ hfound
        · rw [heq] at hnone
          exact absurd hnone (by simp)

/-- A path through the view 1, which has not seen the value the path leads to. -/
theorem resolve_through_stale_view :
    aliased.Reachable ∧ aliased.keys 1 = [] ∧
      ∃ m g, aliased.resolve 0 "a/0" "/" = (some m, g) ∧ g.value m = .int 7 := by
  have hresolve := resolve_iff_lookup reachable_aliased 0 "a/0" "/" (by decide) (by decide)
    (by decide)
  have hsome := hresolve.1.mpr ⟨⟨.name "a", rfl, by decide⟩, rfl⟩
  rcases Option.isSome_iff_exists.mp hsome with ⟨m, hm⟩
  rcases hresolve.2 m _ (Prod.ext hm rfl) with ⟨v, u, _, hu, _, hshows⟩
  have hseven : u = .int 7 := (Option.some.inj hu).symm
  exact ⟨reachable_aliased, rfl, m, _, Prod.ext hm rfl, hshows.value.trans hseven⟩

end Forest

end DocTree
