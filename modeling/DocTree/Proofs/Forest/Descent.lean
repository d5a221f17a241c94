import Mathlib
import DocTree.Proofs.Forest.Lineage

/-!
# Paths Lead Down

A selector may take a path up again, and one segment may take it two views down. Yet a path
without wildcards never leaves what is below the view where it starts.

The reason is where a selector is applied. It is applied to a child that has just been fetched,
so the parent that it can go up to is the view that the segment started from. That needs the
child to know this very view as its parent, and not another one of the same slot: in a linked
forest a remembered child does. So one segment leads from a view to itself, to a child or to a
child of a child, and segments add up.

Steps are counted along parents. The location of a view is as many keys longer than that of an
ancestor as there are steps between them, which tells how deep a path can lead, and that it
leads to the slot where it started only by leading to the same view.

## Main definitions

* `Forest.LeadsDown`: what is found is at most so many steps below a view.

## Theorems

* `ancestor?_of_extends`, `ancestor?_add`: steps up are kept, and add up.
* `location_of_ancestor?`: the location, so many steps below a view.
* `leadsDown_get`: one segment leads down by two steps at most.
* `leadsDown_walkSegments`: a path leads down by two steps for each segment at most.
* `resolve_stays_below`: no path without wildcards leaves what is below its start.
-/

namespace DocTree

namespace Forest

variable {f g : Forest}

/-! ## Steps up -/

/-- A view that is kept has the parent it had. -/
theorem parent_of_extends (h : f.Extends g) (n p : ViewId) (hp : f.parent n = some p) :
    g.parent n = some p := by
  rcases Option.bind_eq_some_iff.mp hp with ⟨v, hv, hparent⟩
  rcases h n v hv with ⟨w, hw, hagrees⟩
  rw [parent_of_view? g n w hw, hagrees.parent, hparent]

/-- The way up from a view that is kept is kept. -/
theorem ancestor?_of_extends (h : f.Extends g) (steps : Nat) (n a : ViewId)
    (ha : f.ancestor? steps n = some a) : g.ancestor? steps n = some a := by
  induction steps generalizing n with
  | zero => exact ha
  | succ steps ih =>
      rcases Option.bind_eq_some_iff.mp ha with ⟨p, hp, hrest⟩
      rw [ancestor?, parent_of_extends h n p hp, Option.bind_some, ih p hrest]

/-- Steps up add up. -/
theorem ancestor?_add (steps more : Nat) (n a b : ViewId) (ha : f.ancestor? steps n = some a)
    (hb : f.ancestor? more a = some b) : f.ancestor? (steps + more) n = some b := by
  -- Induction on the steps of the lower part.
  induction steps generalizing n with
  | zero =>
      obtain rfl := Option.some.inj ha
      rwa [Nat.zero_add]
  | succ steps ih =>
      rcases Option.bind_eq_some_iff.mp ha with ⟨p, hp, hrest⟩
      rw [Nat.succ_add, ancestor?, hp, Option.bind_some, ih p hrest]

/-- So many steps below a view, the location is that many keys longer. -/
theorem location_of_ancestor? (hf : f.Rooted) (steps : Nat) (m n : ViewId) (w : View)
    (hw : f.view? m = some w) (h : f.ancestor? steps m = some n) :
    ∃ v keys, f.view? n = some v ∧ w.document = v.document ∧
      w.location = v.location ++ keys ∧ keys.length = steps := by
  induction steps generalizing m w with
  | zero =>
      obtain rfl := Option.some.inj h
      exact ⟨w, [], hw, rfl, (List.append_nil _).symm, rfl⟩
  | succ steps ih =>
      rcases Option.bind_eq_some_iff.mp h with ⟨p, hp, hrest⟩
      rw [parent_of_view? f m w hw] at hp
      rcases hf.cases m w hw with hroot | ⟨q, u, key, _, hu, hdocument, hlocation, _, hparent⟩
      · rw [hroot.parent] at hp
        exact absurd hp (by simp)
      · -- The parent looks at the same location less its last key.
        obtain rfl : q = p := Option.some.inj (hparent.symm.trans hp)
        rcases ih q u hu hrest with ⟨v, keys, hv, hdocument', hlocation', hlength⟩
        refine ⟨v, keys ++ [key], hv, hdocument.trans hdocument', ?_, ?_⟩
        · rw [hlocation, hlocation', List.append_assoc]
        · rw [List.length_append, hlength, List.length_singleton]

/-- Whatever has a view above it is a view. -/
theorem exists_view?_of_ancestor? (steps : Nat) (m n : ViewId) (v : View)
    (h : f.ancestor? steps m = some n) (hv : f.view? n = some v) : ∃ w, f.view? m = some w := by
  cases steps with
  | zero =>
      obtain rfl := Option.some.inj h
      exact ⟨v, hv⟩
  | succ steps =>
      rcases Option.bind_eq_some_iff.mp h with ⟨p, hp, _⟩
      rcases Option.bind_eq_some_iff.mp hp with ⟨w, hw, _⟩
      exact ⟨w, hw⟩

/-! ## Segments -/

/-- What an operation finds, if it finds anything, is at most this many steps below the view. -/
def LeadsDown (n : ViewId) (depth : Nat) (r : Option ViewId × Forest) : Prop :=
  ∀ m, r.1 = some m → ∃ steps, steps ≤ depth ∧ r.2.ancestor? steps m = some n

theorem leadsDown_none (n : ViewId) (depth : Nat) : LeadsDown n depth (none, f) :=
  fun _ hm => absurd hm (by simp)

/-- The parent of a fetched child is the view that it was fetched from. -/
theorem parent_of_child (hf : f.Linked) (n : ViewId) (key : Key) (c : ViewId)
    (h : (f.child n key).1 = some c) : (f.child n key).2.parent c = some n := by
  rcases child_cases f n key with hnone | ⟨v, _, hv, _⟩
  · rw [hnone] at h
    exact absurd h (by simp)
  · rcases isChild_of_child f hf n v key c _ hv (Prod.ext h rfl) with ⟨w, hw, _, _, _, hparent⟩
    rw [parent_of_view? _ c w hw, hparent]

/-- The child at a position is one step down. -/
theorem leadsDown_childAt (hf : f.Linked) (n : ViewId) (i : Nat) :
    LeadsDown n 1 (f.childAt n i) := by
  unfold childAt
  split
  · rename_i key _
    intro c hc
    exact ⟨1, Nat.le_refl 1, by rw [ancestor?, parent_of_child hf n key c hc]; rfl⟩
  · exact leadsDown_none n 1

theorem leadsDown_nthChild (hf : f.Linked) (n : ViewId) (position : Int64) :
    LeadsDown n 1 (f.nthChild n position) := by
  unfold nthChild
  split
  · exact leadsDown_childAt hf n _
  · exact leadsDown_none n 1

/-- So is the last child. -/
theorem leadsDown_last (hf : f.Linked) (n : ViewId) : LeadsDown n 1 (f.last n) := by
  unfold last
  split
  · exact leadsDown_childAt hf n _
  · exact leadsDown_none n 1

/-- What is below a view that has a parent is below that parent, one step more. -/
theorem LeadsDown.of_parent {c n : ViewId} {depth : Nat} {r : Option ViewId × Forest}
    (h : LeadsDown c depth r) (hparent : f.parent c = some n) (hext : f.Extends r.2) :
    LeadsDown n (depth + 1) r := by
  intro m hm
  rcases h m hm with ⟨steps, hle, hsteps⟩
  refine ⟨steps + 1, Nat.succ_le_succ hle, ancestor?_add steps 1 m c n hsteps ?_⟩
  rw [ancestor?, parent_of_extends hext c n hparent]
  rfl

/-- A selector leads back up to the parent, or down to a child. -/
theorem leadsDown_select (hf : f.Linked) (c n : ViewId) (hparent : f.parent c = some n)
    (s : Selector) : LeadsDown n 2 (f.select c s) := by
  have hext := extends_looks f _ (looks_of_glances f _ (glances_select f c s))
  revert hext
  unfold select
  split
  · intro hext
    -- The parent is the view itself; each of the other selectors goes on from the child.
    cases s with
    | parent =>
        intro m hm
        obtain rfl : n = m := Option.some.inj (hparent.symm.trans hm)
        exact ⟨0, Nat.zero_le 2, rfl⟩
    | nthChild i => exact (leadsDown_nthChild hf c i).of_parent hparent hext
    | first => exact (leadsDown_childAt hf c 0).of_parent hparent hext
    | last => exact (leadsDown_last hf c).of_parent hparent hext
  · exact fun _ => leadsDown_none n 2

/-- One segment leads from a view to itself, to a child, or to a child of a child. -/
theorem leadsDown_get (hf : f.Linked) (n : ViewId) (raw : String) :
    LeadsDown n 2 (f.get n raw) := by
  have hlooks := looks_of_glances f _ (glances_child f n (Segment.parse raw).key)
  have hparent := parent_of_child hf n (Segment.parse raw).key
  simp only [get]
  split
  · rename_i c g hchild
    rw [hchild] at hlooks hparent
    split
    · -- With a selector, from the child on. The forest has fetched the child by then, which keeps
      -- it linked.
      exact leadsDown_select (linked_looks f g hlooks hf) c n (hparent c rfl) _
    · intro m hm
      obtain rfl : c = m := Option.some.inj hm
      exact ⟨1, Nat.le_succ 1, by rw [ancestor?, hparent c rfl]; rfl⟩
  · exact leadsDown_none n 2

/-- What is below a view that is itself below another is below that one. -/
theorem LeadsDown.trans {c n : ViewId} {depth more : Nat} {r : Option ViewId × Forest}
    (hc : LeadsDown n depth (some c, f)) (h : LeadsDown c more r) (hext : f.Extends r.2) :
    LeadsDown n (depth + more) r := by
  intro m hm
  rcases hc c rfl with ⟨steps, hle, hsteps⟩
  rcases h m hm with ⟨steps', hle', hsteps'⟩
  refine ⟨steps' + steps, by omega, ancestor?_add steps' steps m c n hsteps' ?_⟩
  exact ancestor?_of_extends hext steps c n hsteps

/-- A path leads down by two steps for each segment at most. -/
theorem leadsDown_walkSegments (hf : f.Linked) (n : ViewId) (segments : List String) :
    LeadsDown n (2 * segments.length) (f.walkSegments n segments) := by
  fun_induction walkSegments f n segments with
  | case1 => exact leadsDown_none _ _
  | case2 f n raw => exact leadsDown_get hf n raw
  | case3 f n raw rest _ c g hget _ ih =>
      have hfound := leadsDown_get hf n raw
      have hlooks := looks_of_glances f _ (glances_get f n raw)
      rw [hget] at hfound hlooks
      -- The rest of the path starts from what the first segment has led to.
      rw [List.length_cons, Nat.mul_succ, Nat.add_comm]
      refine hfound.trans (ih (linked_looks f g hlooks hf)) ?_
      exact extends_looks _ _ (looks_of_glances _ _ (glances_walkSegments g c rest))
  | case4 f n raw rest _ c g hget => exact leadsDown_none _ _
  | case5 f n raw rest _ g hget => exact leadsDown_none _ _

/-! ## Paths -/

/-- A path without wildcard segments leads down. The lone wildcard can be such a path, if it is
    its own separator; it leads nowhere else. -/
theorem leadsDown_resolve (hf : f.Linked) (n : ViewId) (text separator : String)
    (hplain : Path.wildcard ∉ (Path.parse text separator).segments) :
    LeadsDown n (2 * (Path.parse text separator).segments.length)
      (f.resolve n text separator) := by
  have hany : (Path.parse text separator).isWildcard = false := by
    rw [Path.isWildcard, List.any_eq_false]
    intro s hs
    rw [decide_eq_true_eq]
    exact fun heq => hplain (heq ▸ hs)
  by_cases hempty : text = ""
  · rw [resolve, if_pos (by rw [hempty]; rfl)]
    exact leadsDown_none _ _
  · by_cases hwildcard : text = Path.wildcard
    · rw [resolve, if_neg (by simpa using hempty), if_pos hwildcard]
      intro m hm
      split at hm
      · obtain rfl : n = m := Option.some.inj hm
        exact ⟨0, Nat.zero_le _, rfl⟩
      · exact absurd hm (by simp)
    · rw [resolve_of_not_isWildcard f n text separator hempty hwildcard hany]
      exact leadsDown_walkSegments hf n _

/-- In a reachable forest, a path without wildcard segments never leads out of what is below the
    view where it starts, whatever selectors it has. What it leads to looks at the same document,
    at the location of the view followed by at most two keys for each segment, and has the view as
    its ancestor, one step up for each of these keys. If there are none, it is the view itself. -/
theorem resolve_stays_below {f : Forest} (hf : f.Reachable) (n : ViewId) (v : View)
    (hv : f.view? n = some v) (text separator : String)
    (hplain : Path.wildcard ∉ (Path.parse text separator).segments) (m : ViewId) (g : Forest)
    (h : f.resolve n text separator = (some m, g)) :
    ∃ w keys, g.view? m = some w ∧ w.document = v.document ∧ w.location = v.location ++ keys ∧
      keys.length ≤ 2 * (Path.parse text separator).segments.length ∧
      g.ancestor? keys.length m = some n ∧ (w.location = v.location → m = n) := by
  have hmoves := moves_of_looks f _ (looks_resolve f n text separator)
  have hdown := leadsDown_resolve hf.linked n text separator hplain
  rw [h] at hmoves hdown
  have hext := extends_moves f g hmoves
  rcases hext n v hv with ⟨v', hv', hagrees⟩
  rcases hdown m rfl with ⟨steps, hle, hsteps⟩
  rcases exists_view?_of_ancestor? steps m n v' hsteps hv' with ⟨w, hw⟩
  rcases location_of_ancestor? (rooted_moves f g hmoves hf.rooted) steps m n w hw hsteps with
    ⟨u, keys, hu, hdocument, hlocation, rfl⟩
  obtain rfl : u = v' := Option.some.inj (hu.symm.trans hv')
  rw [hagrees.document] at hdocument
  rw [hagrees.location] at hlocation
  refine ⟨w, keys, hw, hdocument, hlocation, hle, hsteps, fun hsame => ?_⟩
  -- Without any key there is no step between the two.
  obtain rfl : keys = [] := by simpa [hlocation] using hsame
  exact Option.some.inj hsteps

/-- Two segments go down and up again, and a third one goes down by two views. Without the third
    the path ends where it started. -/
theorem below_by_selectors :
    let f := (ofDocuments [.sequence [.sequence [.sequence [.int 7]]]]).run
      [.root 0, .navigate 0 (.child (.index 0))]
    let path := "0::parent().0::parent().0::nthChild(1)"
    let g := (f.resolve 1 path ".").2
    f.Reachable ∧ Path.wildcard ∉ (Path.parse path ".").segments ∧
      f.resolve 1 path "." = (some 3, g) ∧
      (g.view? 3).map View.location = some ([.index 0] ++ [.index 0, .index 0]) ∧
      g.ancestor? 2 3 = some 1 ∧ (f.resolve 1 "0::parent().0::parent()" ".").1 = some 1 := by
  intro f path g
  have hf : f.Reachable := ⟨_, _, rfl⟩
  have hplain : Path.wildcard ∉ (Path.parse path ".").segments := by decide +kernel
  have hfound : f.resolve 1 path "." = (some 3, g) := Prod.ext (by decide +kernel) rfl
  have hplace : (g.view? 3).map View.location = some ([.index 0] ++ [.index 0, .index 0]) := by
    decide +kernel
  rcases resolve_stays_below hf 1 _ rfl path "." hplain 3 g hfound with
    ⟨w, keys, hw, _, hlocation, _, hancestor, _⟩
  have hkeys : [Key.index 0] ++ keys = [.index 0] ++ [.index 0, .index 0] := by
    rw [hw, Option.map_some, hlocation] at hplace
    exact Option.some.inj hplace
  rw [List.append_cancel_left hkeys] at hancestor
  exact ⟨hf, hplain, hfound, hplace, hancestor, by decide +kernel⟩

end Forest

end DocTree
