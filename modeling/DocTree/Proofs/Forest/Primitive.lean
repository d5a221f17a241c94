import Mathlib
import DocTree.Proofs.Collect
import DocTree.Proofs.Normal
import DocTree.Proofs.Forest.Children
import DocTree.Proofs.Forest.Distinct
import DocTree.Proofs.Forest.Vantage

/-!
# Rebuilding a Value from Views

The value of a view is read from its slot. It can also be rebuilt from the view and all
views below it, and then it is what the view *exposes*: the entries under the keys of its
snapshot, as far as they still exist.

Only the snapshot of the view itself matters. The views below it may be stale to begin
with, or of the wrong kind, but each of them is fetched before anything is rebuilt from
it, and shows its slot from then on: nothing that is done while the others are rebuilt
loads anything into it but what its slot holds. So from a child the value of its slot is
rebuilt in full, by induction on the depth of that value.

The recursion over views has no measure of its own. It is run with the depth of the value
for a bound, and `Rebuilds` is the recursion without one: that it holds of the result
says that the bound is never met.

A container view whose slot has come to hold a scalar exposes no entries. There is nothing
to load for it either, so its snapshot can be up to date and what is rebuilt is an empty
container all the same.

## Main definitions

* `Forest.exposed`: what a view exposes.
* `Forest.Rebuilds`, `Forest.RebuildsAll`: the recursion without a bound.

## Theorems

* `shows_looks`: a view that shows its slot goes on showing it while a program looks.
* `exposed_of_shows`: such a view exposes its slot in full.
* `exposes_items`: the children of a view show what the view exposes.
* `rebuildsAll_thread`, `rebuilds_primitiveWithin`: what is rebuilt from children and views.
* `primitive_exact`: what is rebuilt from a view is what it exposes.
-/

namespace DocTree

namespace Value

theorem depth_child?_lt (v u : Value) (key : Key) (h : v.child? key = some u) :
    u.depth < v.depth := by
  rcases exists_container_of_child? v u key h with ⟨c, rfl, hget⟩
  have hle := (entriesDepth_le_iff c _).mp (Nat.le_refl _) u
    (Entries.mem_values_of_get? c key u hget)
  exact Nat.lt_succ_of_le hle

/-- A container with distinct keys is made of its children. -/
theorem container_filterMap_child? (v : Value) (hv : v.Distinct) (h : v.isContainer = true) :
    container (v.keys.filterMap fun key => (v.child? key).map (key, ·)) = v := by
  cases v with
  | container c => exact congrArg container (Entries.filterMap_get?_keys c hv.1)
  | _ => exact absurd h (by simp [isContainer])

end Value

namespace Forest

/-- What a view exposes: a leaf its value, and a container view the slots under the keys of its
    snapshot, in the order of the snapshot and less those that are gone. -/
def exposed (f : Forest) (n : ViewId) : Value :=
  if f.isContainer n then
    .container ((f.keys n).filterMap fun key => (f.slotBelow? n key).map (key, ·))
  else f.value n

mutual

/-- From the view `n` this value is rebuilt, and then the forest is `g`. -/
inductive Rebuilds : Forest → ViewId → Value → Forest → Prop
  | leaf (f : Forest) (n : ViewId) : f.isContainer n = false → Rebuilds f n (f.value n) f
  | container (f g : Forest) (n : ViewId) (pairs : List (Key × Value)) :
      f.isContainer n = true → RebuildsAll (f.items n).2 (f.items n).1 pairs g →
      Rebuilds f n (.container (Entries.collect pairs)) g

/-- From these views, one after the other, these values are rebuilt under the same keys. -/
inductive RebuildsAll : Forest → List (Key × ViewId) → List (Key × Value) → Forest → Prop
  | nil (f : Forest) : RebuildsAll f [] [] f
  | cons (f g h : Forest) (key : Key) (c : ViewId) (u : Value) (children : List (Key × ViewId))
      (pairs : List (Key × Value)) :
      Rebuilds f c u g → RebuildsAll g children pairs h →
      RebuildsAll f ((key, c) :: children) ((key, u) :: pairs) h

end

/-- The recursion comes to one value and one forest, if it comes to an end. -/
theorem Rebuilds.unique {f g g' : Forest} {n : ViewId} {u u' : Value}
    (h : Rebuilds f n u g) (h' : Rebuilds f n u' g') : u = u' ∧ g = g' := by
  -- The two relations are defined by each other, so there are two motives.
  refine @Rebuilds.rec (fun f n u g _ => ∀ u' g', Rebuilds f n u' g' → u = u' ∧ g = g')
    (fun f children pairs g _ => ∀ pairs' g', RebuildsAll f children pairs' g' →
      pairs = pairs' ∧ g = g') ?_ ?_ ?_ ?_ f n u g h u' g' h'
  · intro f n hleaf u' g' h'
    cases h' with
    | leaf => exact ⟨rfl, rfl⟩
    | container _ _ _ _ hcontainer _ => exact absurd hcontainer (by simp [hleaf])
  · intro f g n pairs hcontainer _ ih u' g' h'
    cases h' with
    | leaf _ _ hleaf => exact absurd hcontainer (by simp [hleaf])
    | container _ _ _ pairs' _ hall =>
        rcases ih pairs' g' hall with ⟨rfl, rfl⟩
        exact ⟨rfl, rfl⟩
  · intro f pairs' g' h'
    cases h'
    exact ⟨rfl, rfl⟩
  · intro f g h key c u children pairs _ _ ihfirst ihrest pairs' g' h'
    cases h' with
    | cons _ k _ _ _ w _ rest hfirst hrest =>
        rcases ihfirst w k hfirst with ⟨rfl, rfl⟩
        rcases ihrest rest g' hrest with ⟨rfl, rfl⟩
        exact ⟨rfl, rfl⟩

/-! ## What stays shown -/

/-- A look leaves the keys of a view as they are, or loads the live ones. -/
theorem keys_look (f g : Forest) (h : Look f g) (n : ViewId) (hn : n < f.views.size) :
    g.keys n = f.keys n ∨ g.keys n = f.liveKeys n := by
  cases h with
  | add v => exact Or.inl rfl
  | root d =>
      rw [keys, root, snapshot?_makeView, if_neg (Nat.ne_of_lt hn)]
      exact Or.inl rfl
  | child m v key slot =>
      rw [keys, snapshot?_adopt, if_neg (Nat.ne_of_lt hn)]
      exact Or.inl rfl
  | load m =>
      rw [keys, reload_eq_update, snapshot?_withSnapshot]
      split
      · rename_i hm
        rw [hm.1]
        exact Or.inr rfl
      · exact Or.inl rfl
  | cursor m s position hs =>
      rw [keys, snapshot?_withSnapshot]
      split
      · rename_i hm
        rw [hm.1] at hs
        rw [keys, hs]
        exact Or.inl rfl
      · exact Or.inl rfl

variable {f g : Forest}

theorem shows_look (h : Look f g) (hf : f.Sound) {n : ViewId} {d : DocumentId}
    {location : List Key} {u : Value} (hn : f.Shows n d location u) : g.Shows n d location u := by
  have hlooks : Looks f g := .single h
  rcases hn.view with ⟨v, hv, rfl, rfl⟩
  rcases extends_looks f g hlooks n v hv with ⟨w, hw, hagrees⟩
  refine ⟨⟨w, hw, hagrees.document, hagrees.location⟩, ?_, ?_, ?_, ?_⟩
  · rw [slotAt?_looks f g hlooks v.document (hf.grounded n v hv), hn.slot]
  · rw [value_looks f g hlooks hf n v hv, hn.value]
  · rw [isContainer_of_extends f g (extends_looks f g hlooks) n v hv, hn.kind]
  · rcases keys_look f g h n (lt_of_view? f n v hv) with hkept | hloaded
    · rw [hkept, hn.keys]
    · rw [hloaded, liveKeys, hn.value]

/-- A view that shows its slot goes on showing it while a program looks. -/
theorem shows_looks (h : Looks f g) (hf : f.Sound) {n : ViewId} {d : DocumentId}
    {location : List Key} {u : Value} (hn : f.Shows n d location u) : g.Shows n d location u := by
  induction h with
  | refl => exact hn
  | tail hbefore hlook ih => exact shows_look hlook (sound_looks _ _ hbefore hf) ih

/-- A view that shows its slot exposes it in full. -/
theorem exposed_of_shows {n : ViewId} {d : DocumentId} {location : List Key} {u : Value}
    (h : f.Shows n d location u) (hu : u.Distinct) : f.exposed n = u := by
  rw [exposed, h.kind]
  split
  · rename_i hcontainer
    simp only [slotBelow?_eq_child?, h.value, h.keys]
    exact u.container_filterMap_child? hu hcontainer
  · exact h.value

/-! ## Children -/

/-- The child shows the value of the pair, under the same key. -/
def Exposes (f : Forest) (e : Key × ViewId) (p : Key × Value) : Prop :=
  e.1 = p.1 ∧ ∃ d location, f.Shows e.2 d location p.2

theorem Exposes.looks (h : Looks f g) (hf : f.Sound) {e : Key × ViewId} {p : Key × Value}
    (he : f.Exposes e p) : g.Exposes e p :=
  ⟨he.1, he.2.imp fun _ h' => h'.imp fun _ hshows => shows_looks h hf hshows⟩

/-- Children that are fetched one after the other show their slots, the first ones still when the
    last has been fetched. -/
theorem exposes_thread_child (f : Forest) (hf : f.Sound) (n : ViewId) (v : View)
    (hv : f.view? n = some v) (keys : List Key) (hkeys : ∀ key ∈ keys, key ∈ f.keys n) :
    let r := thread (fun f key => ((f.child n key).1.map (key, ·), (f.child n key).2)) f keys
    List.Forall₂ r.2.Exposes (r.1.filterMap id)
      (keys.filterMap fun key => (f.slotBelow? n key).map (key, ·)) := by
  induction keys generalizing f v with
  | nil => exact .nil
  | cons key keys ih =>
      rw [List.forall_mem_cons] at hkeys
      have hglances := glances_child f n key
      have hlooks := looks_of_glances _ _ hglances
      have hsound := sound_looks f _ hlooks hf
      -- The view and the slots below it are the same for the other children.
      have hspares := spares_child f hf.linked n v key hv
      have hsnapshot := hspares.snapshots n v hv fun _ => Nat.le_refl _
      rcases extends_looks f _ hlooks n v hv with ⟨w, hw, _⟩
      have hslots : ∀ k, (f.child n key).2.slotBelow? n k = f.slotBelow? n k := fun k => by
        rw [slotBelow?_eq_child?, slotBelow?_eq_child?, value_looks f _ hlooks hf n v hv]
      have hrest := ih (f.child n key).2 hsound w hw fun k hk => by
        rw [Forest.keys, hsnapshot]
        exact hkeys.2 k hk
      simp only [hslots] at hrest
      simp only [thread]
      cases hslot : f.slotBelow? n key with
      | none =>
          rw [child_of_slotBelow?_eq_none f n key fun _ => hslot] at hrest ⊢
          rw [List.filterMap_cons_none (by rfl), List.filterMap_cons_none (by rw [hslot]; rfl)]
          exact hrest
      | some u =>
          have hu := hslot
          rw [slotBelow?_of_view? f n v key hv] at hu
          rcases shows_child f hf.linked n v key u hv hkeys.1 hu with ⟨c, g, hchild, _, hshows⟩
          rw [hchild] at hrest hsound ⊢
          rw [List.filterMap_cons_some (by rfl), List.filterMap_cons_some (by rw [hslot]; rfl)]
          refine .cons ?_ hrest
          have hafter : Glances g
              (thread (fun f key => ((f.child n key).1.map (key, ·), (f.child n key).2)) g
                keys).2 := by
            refine glances_thread _ ?_ g keys
            intro g' k
            exact glances_child g' n k
          exact Exposes.looks (looks_of_glances _ _ hafter) hsound ⟨rfl, _, _, hshows⟩

/-- The children of a view show what the view exposes. -/
theorem exposes_items (f : Forest) (hf : f.Sound) (n : ViewId) :
    List.Forall₂ (f.items n).2.Exposes (f.items n).1
      ((f.keys n).filterMap fun key => (f.slotBelow? n key).map (key, ·)) := by
  rcases hv : f.view? n with _ | v
  · have hkeys : f.keys n = [] := by rw [keys, snapshot?, hv]; rfl
    rw [items, hkeys]
    exact .nil
  · exact exposes_thread_child f hf n v hv (f.keys n) fun _ h => h

/-! ## Rebuilding -/

/-- If from every view the value in its slot is rebuilt that it shows, then from children the values
    are that they show. -/
theorem rebuildsAll_thread (depth : Nat) (f : Forest) (hf : f.Sound) (hdistinct : f.Distinct)
    (children : List (Key × ViewId)) (pairs : List (Key × Value))
    (hexposes : List.Forall₂ f.Exposes children pairs) (hdepth : ∀ p ∈ pairs, p.2.depth < depth)
    (hview : ∀ g : Forest, g.Sound → g.Distinct → ∀ c d location u, g.Shows c d location u →
      u.depth < depth → (primitiveWithin depth g c).1 = u ∧
        Rebuilds g c u (primitiveWithin depth g c).2) :
    let r := thread (fun f e =>
      ((e.1, (primitiveWithin depth f e.2).1), (primitiveWithin depth f e.2).2)) f children
    r.1 = pairs ∧ RebuildsAll f children pairs r.2 := by
  induction children generalizing f pairs with
  | nil =>
      cases hexposes
      exact ⟨rfl, .nil f⟩
  | cons e children ih =>
      rcases e with ⟨key, c⟩
      cases hexposes with
      | @cons _ p _ pairs he hrest =>
          rcases p with ⟨key', u⟩
          rcases he with ⟨rfl, d, location, hshows⟩
          rw [List.forall_mem_cons] at hdepth
          rcases hview f hf hdistinct c d location u hshows hdepth.1 with ⟨hvalue, hrebuilds⟩
          -- The other children still show their slots when the first is done.
          have hglances := glances_primitiveWithin depth f c
          have hlooks := looks_of_glances _ _ hglances
          rcases ih (primitiveWithin depth f c).2 (sound_looks f _ hlooks hf)
            (hdistinct.glances hglances) pairs (hrest.imp fun _ _ he => he.looks hlooks hf)
            hdepth.2 with ⟨hvalues, hall⟩
          simp only [thread]
          refine ⟨?_, .cons f _ _ key c u children pairs hrebuilds hall⟩
          rw [hvalue, hvalues]

/-- What a view exposes has the keys of its snapshot, at most. -/
theorem distinct_exposed (f : Forest) (n : ViewId) (h : (f.keys n).Nodup) :
    Entries.Distinct ((f.keys n).filterMap fun key => (f.slotBelow? n key).map (key, ·)) := by
  have hkeys : Entries.keys ((f.keys n).filterMap fun key => (f.slotBelow? n key).map (key, ·))
      = (f.keys n).filter fun key => (f.slotBelow? n key).isSome := by
    rw [Entries.keys, List.map_filterMap, ← List.filterMap_eq_filter]
    refine List.filterMap_congr fun key _ => ?_
    cases hslot : f.slotBelow? n key <;> simp [Option.guard, hslot]
  rw [Entries.Distinct, hkeys]
  exact h.filter _

/-- With a bound above the depth of its value, a view rebuilds what it exposes, and does not come to
    the bound. By induction on the bound: the slots below the view are less deep. -/
theorem rebuilds_primitiveWithin (depth : Nat) (f : Forest) (hf : f.Sound)
    (hdistinct : f.Distinct) (n : ViewId) (hkeys : (f.keys n).Nodup)
    (hdepth : (f.value n).depth < depth) :
    (primitiveWithin depth f n).1 = f.exposed n ∧
      Rebuilds f n (f.exposed n) (primitiveWithin depth f n).2 := by
  induction depth generalizing f n with
  | zero => exact absurd hdepth (Nat.not_lt_zero _)
  | succ depth ih =>
      rw [exposed, primitiveWithin]
      by_cases hcontainer : f.isContainer n = true
      · let pairs := (f.keys n).filterMap fun key => (f.slotBelow? n key).map (key, ·)
        have hglances := glances_items f n
        have hsound := sound_looks f _ (looks_of_glances _ _ hglances) hf
        -- What is left of the bound is above the depth of every slot that is exposed.
        have hless : ∀ p ∈ pairs, p.2.depth < depth := by
          intro p hp
          rcases List.mem_filterMap.mp hp with ⟨key, _, hslot⟩
          rcases Option.map_eq_some_iff.mp hslot with ⟨u, hu, rfl⟩
          rw [slotBelow?_eq_child?] at hu
          have hlt := Value.depth_child?_lt _ u key hu
          dsimp only
          omega
        -- A view that shows its slot is rebuilt in full, by induction, as nothing in it is stale.
        have hview : ∀ g : Forest, g.Sound → g.Distinct → ∀ c d location u,
            g.Shows c d location u → u.depth < depth → (primitiveWithin depth g c).1 = u ∧
              Rebuilds g c u (primitiveWithin depth g c).2 := by
          intro g hg hgdistinct c d location u hshows hu
          have hudistinct := distinct_slotAt? hgdistinct d location u hshows.slot
          have hshown : (g.keys c).Nodup := by
            rw [hshows.keys]
            exact Value.nodup_keys u hudistinct
          have hc := ih g hg hgdistinct c hshown (by rwa [hshows.value])
          rwa [exposed_of_shows hshows hudistinct] at hc
        rcases rebuildsAll_thread depth (f.items n).2 hsound (hdistinct.glances hglances)
          (f.items n).1 pairs (exposes_items f hf n) hless hview with ⟨hvalues, hall⟩
        -- Collecting the pairs combines none of them.
        have hcollect : Entries.collect pairs = pairs :=
          Entries.collect_of_distinct pairs (distinct_exposed f n hkeys)
        rw [if_pos hcontainer, if_pos hcontainer]
        refine ⟨?_, ?_⟩
        · dsimp only
          rw [hvalues, hcollect]
        · have hrebuilds := Rebuilds.container f _ n pairs hcontainer hall
          rwa [hcollect] at hrebuilds
      · rw [if_neg hcontainer, if_neg hcontainer]
        exact ⟨rfl, .leaf f n (by simpa using hcontainer)⟩

/-- Rebuilding a value from a view comes to an end, with the value that the view exposes: that of
    its slot from a leaf, and from a container view the slots under the keys of its snapshot that
    still exist, each in full. If the slot holds a container and the snapshot is up to date, that
    is the value of the slot. A new view of a new document rebuilds the document. -/
theorem primitive_exact {f : Forest} (hf : f.ReachableDistinct) (n : ViewId) :
    Rebuilds f n (f.primitive n).1 (f.primitive n).2 ∧
      (f.isContainer n = false → (f.primitive n).1 = f.value n) ∧
      (f.isContainer n = true → (f.primitive n).1 = .container
        ((f.keys n).filterMap fun key => (f.slotBelow? n key).map (key, ·))) ∧
      ((f.value n).isContainer = true → f.keys n = f.liveKeys n →
        (f.primitive n).1 = f.value n) ∧
      ∀ v : Value, v.Distinct →
        let r := f.walk v
        r.2.value r.1 = v ∧ (r.2.primitive r.1).1 = v := by
  have hsound := hf.reachable.sound
  rcases rebuilds_primitiveWithin _ f hsound hf.distinct n (hf.nodup_keys n)
    (Nat.lt_succ_self _) with ⟨hvalue, hrebuilds⟩
  rw [← primitive] at hvalue hrebuilds
  refine ⟨hvalue ▸ hrebuilds, fun hleaf => ?_, fun hcontainer => ?_, fun hslot hlive => ?_,
    fun v hv => ?_⟩
  · rw [hvalue, exposed, if_neg (by simp [hleaf])]
  · rw [hvalue, exposed, if_pos hcontainer]
  · rw [hvalue, exposed]
    split
    · simp only [slotBelow?_eq_child?, hlive, liveKeys]
      exact (f.value n).container_filterMap_child? (distinct_value hf.distinct n) hslot
    · rfl
  · -- The new document has its distinct keys by assumption, the others have them already.
    have hlooks := looks_walk f v
    have hwalked : (f.walk v).2.Distinct := by
      intro d hd
      rcases Array.mem_push.mp hd with hd | rfl
      · exact hf.distinct d hd
      · exact hv
    have hrebuilt := rebuilds_primitiveWithin _ (f.walk v).2 (sound_looks f _ hlooks hsound)
      hwalked (f.walk v).1 (nodup_keys_looks hlooks hwalked hf.nodup_keys _) (Nat.lt_succ_self _)
    have hshows : (f.walk v).2.Shows (f.walk v).1 f.documents.size [] v :=
      shows_root { f with documents := f.documents.push v } _ v (by simp [slotAt?, Value.lookup])
    exact ⟨hshows.value, hrebuilt.1.trans (exposed_of_shows hshows hv)⟩

/-- The root of `aliased` is rebuilt in full, though it remembers the stale view of its container.
    That view itself is rebuilt without the 7 that it has not seen. -/
theorem primitive_of_aliased :
    aliased.ReachableDistinct ∧ aliased.keys 0 = aliased.liveKeys 0 ∧
      (aliased.primitive 0).1 = .container [(.name "a", .container [(.index 0, .int 7)])] ∧
      (aliased.primitive 1).1 = .container [] := by
  have hlive : aliased.keys 0 = aliased.liveKeys 0 := rfl
  have hroot := (primitive_exact reachableDistinct_aliased 0).2.2.2.1 rfl hlive
  have hstale := (primitive_exact reachableDistinct_aliased 1).2.2.1 rfl
  exact ⟨reachableDistinct_aliased, hlive, hroot, hstale⟩

/-- A view 1 of a container that has given way to a scalar, loaded again since then. -/
def supplanted : Forest :=
  (ofDocuments [.container [(.name "a", .container [(.name "b", .int 1)])]]).run
    [.root 0, .navigate 0 (.child (.name "a")), .mutate 0 (.set "a" (.int 5) "/"),
      .navigate 1 .reload]

/-- An up-to-date snapshot is not enough for a container view to rebuild the value of its slot. -/
theorem primitive_ne_value_of_supplanted :
    supplanted.ReachableDistinct ∧ supplanted.isContainer 1 = true ∧
      supplanted.keys 1 = supplanted.liveKeys 1 ∧
      (supplanted.primitive 1).1 = .container [] ∧ supplanted.value 1 = .int 5 ∧
      (supplanted.primitive 1).1 ≠ supplanted.value 1 := by
  have hreachable : supplanted.ReachableDistinct :=
    (ReachableDistinct.start _ (by decide)).run _ (by decide) (by decide +kernel)
  have hprimitive : (supplanted.primitive 1).1 = .container [] := rfl
  have hvalue : supplanted.value 1 = .int 5 := rfl
  refine ⟨hreachable, by decide +kernel, by decide +kernel, hprimitive, hvalue, ?_⟩
  rw [hprimitive, hvalue]
  exact fun h => Value.noConfusion h

end Forest

end DocTree
