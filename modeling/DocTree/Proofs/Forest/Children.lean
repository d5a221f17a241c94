import Mathlib
import DocTree.Proofs.Forest.Sound
import DocTree.Proofs.Forest.Trace

/-!
# Children from One Fetch to the Next

What a fetch promises at its moment is that the child is there exactly if the view has the
key and the document has the slot, and that the child shows the slot. It does not matter
where the child comes from: a remembered one may have been made when the slot held
something else, or may not have been looked at since.

What it promises for later is that the child is the same view again, as long as somebody
needs it. A view *remembers* one child for each key. The child is forgotten only when
another one is made for its key, and that happens only when it is no longer alive or the
slot is of the other kind at the moment of a fetch. Between fetches the slot may hold
anything, or be gone.

A fetch here is any moment at which a child is looked up. The ways to navigate that hand out
children do so at such moments, and so do those that keep to themselves what they find.

## Main definitions

* `Forest.slotBelow?`: the slot of a child, whether there is a child or not.
* `Forest.Remembers`: the child that a view remembers for a key.
* `Forest.Suits`: a child of the kind that a fetch wants.
* `Navigation.found`: the children that a way to navigate hands out.

## Theorems

* `shows_of_child`: what a fetched child shows.
* `child_shows_slot`: when a child is fetched, and what it shows.
* `remembers_of_child`: a fetched child is remembered.
* `child_of_remembers`: what is remembered and suits is fetched again.
* `remembers_after`: an event does not make a view forget a child that is needed.
* `exists_moment_of_mem_found`, `exists_fetch_of_mem_found`: children are handed out where they
  are fetched.
* `child_throughout`: a child that is needed is fetched again and again.
-/

namespace DocTree

namespace View

/-- A child that is new under its key takes the place of any before it. -/
theorem get?_children_withChild_self (v : View) (key : Key) (c : ViewId) (alive : ViewId → Bool)
    (h : v.isContainer = true) :
    Entries.get? (v.withChild key c alive).children key = some c := by
  rcases v with ⟨d, location, own, parent, face⟩
  cases face with
  | leaf => exact absurd h (by simp [isContainer])
  | container s children =>
      simp only [withChild, View.children]
      rw [Entries.get?_append, Entries.get?_filter_eq_none children key _ (by simp),
        Option.none_or, Entries.get?, if_pos rfl]

/-- Under the other keys the children that are alive stay remembered. -/
theorem get?_children_withChild_of_ne (v : View) (key other : Key) (c k : ViewId)
    (alive : ViewId → Bool) (hne : other ≠ key) (hk : Entries.get? v.children other = some k)
    (halive : alive k = true) :
    Entries.get? (v.withChild key c alive).children other = some k := by
  rcases v with ⟨d, location, own, parent, face⟩
  cases face with
  | leaf => exact hk
  | container s children =>
      simp only [withChild, View.children]
      rw [Entries.get?_append,
        Entries.get?_filter_of_get? children other k _ hk (by simp [hne, halive]), Option.some_or]

end View

namespace Forest

/-! ## One fetch -/

/-- The slot one key further down than that of a view. -/
def slotBelow? (f : Forest) (n : ViewId) (key : Key) : Option Value :=
  (f.view? n).bind fun v => f.slotAt? v.document (v.location ++ [key])

/-- The slot of a child, for a view that is at hand. -/
theorem slotBelow?_of_view? (f : Forest) (n : ViewId) (v : View) (key : Key)
    (h : f.view? n = some v) :
    f.slotBelow? n key = f.slotAt? v.document (v.location ++ [key]) := by
  rw [slotBelow?, h, Option.bind_some]

/-- The slot below a view is a child of its value, also if the slot of the view is gone. -/
theorem slotBelow?_eq_child? (f : Forest) (n : ViewId) (key : Key) :
    f.slotBelow? n key = (f.value n).child? key := by
  -- What is no view has no slot, and reads as null, which has no children.
  cases hv : f.view? n with
  | none =>
      rw [slotBelow?, value, slot?, hv]
      rfl
  | some v =>
      rw [slotBelow?_of_view? f n v key hv, ← lookup_value f n v hv, Value.lookup]
      exact Option.bind_fun_some _

/-- Without the key in the snapshot, or without the slot, there is no child. -/
theorem child_of_slotBelow?_eq_none (f : Forest) (n : ViewId) (key : Key)
    (h : key ∈ f.keys n → f.slotBelow? n key = none) : f.child n key = (none, f) := by
  -- The view is looked up once for the key and once for the slot.
  refine child_of_none f n key fun v hv hkey => ?_
  rw [← slotBelow?_of_view? f n v key hv, h hkey]

/-- What is fetched is the child for a key that the view has, and shows a slot that exists, wherever
    the child comes from. -/
theorem shows_of_child (f : Forest) (hf : f.Linked) (n : ViewId) (key : Key) (c : ViewId)
    (g : Forest) (h : f.child n key = (some c, g)) :
    ∃ v u, f.view? n = some v ∧ key ∈ f.keys n ∧ f.slotBelow? n key = some u ∧
      g.documents = f.documents ∧ g.IsChild c n v key ∧
      g.Shows c v.document (v.location ++ [key]) u := by
  rcases child_cases f n key with hnone | ⟨v, u, hv, hkey, hslot, _⟩
  · rw [hnone] at h
    exact absurd (congrArg Prod.fst h) (by simp)
  · rcases shows_child f hf n v key u hv hkey hslot with ⟨c', g', hchild, hdocs, hshows⟩
    rw [h, Prod.mk.injEq, Option.some.injEq] at hchild
    -- What was fetched is what is known to show the slot.
    rcases hchild with ⟨rfl, rfl⟩
    exact ⟨v, u, hv, hkey, by rw [slotBelow?_of_view? f n v key hv, hslot], hdocs,
      isChild_of_child f hf n v key c g hv h, hshows⟩

/-- In a reachable forest a child is fetched exactly if the view is a container view that has the
    key, and the slot under the key exists now. The child has the view as its parent and looks at
    that slot. Its kind, its value and its keys are those of the slot, wherever the child comes
    from, and no document has changed. -/
theorem child_shows_slot {f : Forest} (hf : f.Reachable) (n : ViewId) (key : Key) :
    ((f.child n key).1.isSome ↔
      f.isContainer n = true ∧ key ∈ f.keys n ∧ (f.slotBelow? n key).isSome) ∧
    ∀ c g, f.child n key = (some c, g) →
      ∃ v u, f.view? n = some v ∧ f.slotBelow? n key = some u ∧ g.documents = f.documents ∧
        g.IsChild c n v key ∧ g.Shows c v.document (v.location ++ [key]) u := by
  have hlinked := hf.linked
  refine ⟨⟨fun hsome => ?_, fun ⟨_, hkey, hsome⟩ => ?_⟩, fun c g h => ?_⟩
  · -- A child is found, so there is what it needs.
    rcases Option.isSome_iff_exists.mp hsome with ⟨c, hc⟩
    rcases shows_of_child f hlinked n key c _ (Prod.ext hc rfl) with ⟨v, u, hv, hkey, hu, _⟩
    refine ⟨?_, hkey, by rw [hu]; rfl⟩
    rw [isContainer_of_view? f n v hv]
    exact isContainer_of_mem_keys f n v key hv hkey
  · -- There is what a child needs, so one is found.
    rcases exists_view?_of_mem_keys f n key hkey with ⟨v, hv⟩
    rcases Option.isSome_iff_exists.mp hsome with ⟨u, hu⟩
    rw [slotBelow?_of_view? f n v key hv] at hu
    rcases shows_child f hlinked n v key u hv hkey hu with ⟨c, g, hchild, _⟩
    rw [hchild]
    rfl
  · rcases shows_of_child f hlinked n key c g h with ⟨v, u, hv, _, hrest⟩
    exact ⟨v, u, hv, hrest⟩

/-- The root of `aliased` remembers the view 1 for `a`, with no keys. A fetch hands out that very
    view, and it has the key that its slot has got in the meantime. -/
theorem child_shows_unseen_entry :
    aliased.Reachable ∧ aliased.keys 1 = [] ∧
      ∃ g, aliased.child 0 (.name "a") = (some 1, g) ∧ g.keys 1 = [.index 0] := by
  have hchild : aliased.child 0 (.name "a") = (some 1, (aliased.child 0 (.name "a")).2) := rfl
  rcases (child_shows_slot reachable_aliased 0 (.name "a")).2 1 _ hchild with
    ⟨v, u, _, hu, _, _, hshows⟩
  have hvalue : u = .container [(.index 0, .int 7)] := (Option.some.inj hu).symm
  exact ⟨reachable_aliased, rfl, _, hchild, by rw [hshows.keys, hvalue]; rfl⟩

/-! ## Remembering -/

/-- The child that the view `n` remembers for this key is `c`. -/
def Remembers (f : Forest) (n : ViewId) (key : Key) (c : ViewId) : Prop :=
  ∃ v, f.view? n = some v ∧ Entries.get? v.children key = some c

/-- If the view `n` has the key and the slot exists, `c` is of the kind of the slot. -/
def Suits (f : Forest) (c n : ViewId) (key : Key) : Prop :=
  key ∈ f.keys n → ∀ u ∈ f.slotBelow? n key, f.isContainer c = u.isContainer

instance (f : Forest) (c n : ViewId) (key : Key) : Decidable (f.Suits c n key) :=
  inferInstanceAs (Decidable (key ∈ f.keys n → ∀ u ∈ f.slotBelow? n key,
    f.isContainer c = u.isContainer))

/-- What a view remembers is a matter of the views alone. -/
theorem remembers_of_views (f g : Forest) (n : ViewId) (key : Key) (c : ViewId)
    (h : f.Remembers n key c) (hviews : ∀ m, g.view? m = f.view? m) : g.Remembers n key c := by
  rcases h with ⟨v, hv, hc⟩
  exact ⟨v, by rw [hviews, hv], hc⟩

/-- A new snapshot makes no view forget a child. -/
theorem remembers_withSnapshot (f : Forest) (n m : ViewId) (s : Snapshot) (key : Key)
    (c : ViewId) (h : f.Remembers n key c) :
    (f.update m (·.withSnapshot s)).Remembers n key c := by
  rcases h with ⟨v, hv, hc⟩
  by_cases hm : m = n
  · exact ⟨v.withSnapshot s, by rw [view?_update, if_pos hm, hv, Option.map_some],
      by rw [View.children_withSnapshot, hc]⟩
  · exact ⟨v, by rw [view?_update, if_neg hm, hv], hc⟩

/-- Nor does a new view. -/
theorem remembers_makeView (f : Forest) (n : ViewId) (key : Key) (c : ViewId)
    (h : f.Remembers n key c) (d : DocumentId) (location : List Key) (own : Option Key)
    (parent : Option ViewId) (slot : Value) :
    (f.makeView d location own parent slot).2.Remembers n key c := by
  rcases h with ⟨v, hv, hc⟩
  refine ⟨v, ?_, hc⟩
  rw [view?_makeView, if_neg (Nat.ne_of_lt (lt_of_view? f n v hv)), hv]

/-- Nor does a view that is brought up to date. -/
theorem remembers_revalidate (f : Forest) (n m : ViewId) (key : Key) (c : ViewId)
    (h : f.Remembers n key c) : (f.revalidate m).Remembers n key c := by
  unfold revalidate
  split
  · exact remembers_withSnapshot f n m _ key c h
  · exact h

/-- A view remembers the child that it adopts. -/
theorem remembers_adopt_self (f : Forest) (n : ViewId) (v : View) (key : Key) (slot : Value)
    (hv : f.view? n = some v) (hcontainer : v.isContainer = true) :
    (f.adopt n v key slot).Remembers n key f.views.size := by
  -- The parent is there before the child is made, so it is not the new view.
  refine ⟨v.withChild key f.views.size f.isAlive, ?_,
    v.get?_children_withChild_self key _ _ hcontainer⟩
  rw [adopt, view?_update, if_pos rfl, view?_makeView,
    if_neg (Nat.ne_of_lt (lt_of_view? f n v hv)), hv, Option.map_some]

/-- Adopting a child makes a view forget no child for another key that is alive, and other views
    nothing. -/
theorem remembers_adopt_of_ne (f : Forest) (n m : ViewId) (v : View) (key other : Key)
    (slot : Value) (c : ViewId) (h : f.Remembers n key c) (halive : f.isAlive c = true)
    (hne : m = n → key ≠ other) : (f.adopt m v other slot).Remembers n key c := by
  rcases remembers_makeView f n key c h v.document (v.location ++ [other]) (some other) (some m)
    slot with ⟨w, hw, hc⟩
  -- Only the view that adopts the child changes what it remembers.
  by_cases hm : m = n
  · refine ⟨w.withChild other f.views.size f.isAlive, ?_, ?_⟩
    · rw [adopt, view?_update, if_pos hm, hw, Option.map_some]
    · exact w.get?_children_withChild_of_ne other key _ c _ (hne hm) hc halive
  · exact ⟨w, by rw [adopt, view?_update, if_neg hm, hw], hc⟩

/-- A fetched child is remembered. -/
theorem remembers_of_child (f : Forest) (n : ViewId) (key : Key) (c : ViewId)
    (h : (f.child n key).1 = some c) : (f.child n key).2.Remembers n key c := by
  rcases child_cases f n key with hnone | ⟨v, slot, hv, hkey, _, ⟨c', hc', hold⟩ | hnew⟩
  · rw [hnone] at h
    exact absurd h (by simp)
  · rw [hold] at h ⊢
    -- The child is an old one: it is remembered already, and then loaded.
    rw [← Option.some.inj h]
    exact remembers_revalidate f n c' key c' ⟨v, hv, hc'⟩
  · rw [hnew] at h ⊢
    -- The child is a new one.
    rw [← Option.some.inj h]
    exact remembers_adopt_self f n v key slot hv (isContainer_of_mem_keys f n v key hv hkey)

/-- A remembered child that is alive and suits is fetched, if there is anything to fetch. -/
theorem child_of_remembers (f : Forest) (n : ViewId) (key : Key) (c : ViewId)
    (h : f.Remembers n key c) (halive : f.isAlive c = true) (hsuits : f.Suits c n key) :
    f.child n key = (none, f) ∨ f.child n key = (some c, f.revalidate c) := by
  rcases h with ⟨v, hv, hc⟩
  by_cases hkey : key ∈ f.keys n
  · cases hslot : f.slotBelow? n key with
    | none => exact Or.inl (child_of_slotBelow?_eq_none f n key fun _ => hslot)
    | some u =>
        have hkind := hsuits hkey u hslot
        rw [slotBelow?_of_view? f n v key hv] at hslot
        -- Alive and of the kind of the slot, it is found among the remembered children.
        have hcached : f.cached? v.children key u.isContainer = some c := by
          rw [cached?, hc, Option.filter_some_pos (by simp [halive, hkind])]
        rw [child_of_slot f n v key u hv hkey hslot, hcached]
        exact Or.inr rfl
  · exact Or.inl (child_of_slotBelow?_eq_none f n key fun h => absurd h hkey)

/-- A fetch of something else makes a view forget no child that is alive. -/
theorem remembers_child_of_ne (f : Forest) (n m : ViewId) (key other : Key) (c : ViewId)
    (h : f.Remembers n key c) (halive : f.isAlive c = true) (hne : m = n → key ≠ other) :
    (f.child m other).2.Remembers n key c := by
  rcases child_cases f m other with hnone | ⟨v, slot, _, _, _, ⟨c', _, hold⟩ | hnew⟩
  · rw [hnone]
    exact h
  · rw [hold]
    exact remembers_revalidate f n c' key c h
  · rw [hnew]
    exact remembers_adopt_of_ne f n m v key other slot c h halive hne

/-- No event makes a view forget a child that is alive, unless it fetches the child when that does
    not suit. -/
theorem remembers_after (f : Forest) (e : Event) (n : ViewId) (key : Key) (c : ViewId)
    (h : f.Remembers n key c) (halive : f.isAlive c = true)
    (hsuits : e = .fetch n key → f.Suits c n key) : (f.after e).Remembers n key c := by
  -- A fetch is the only event by which a view forgets a child.
  cases e with
  | fetch m other =>
      -- A fetch of the child finds it again, a fetch of another one spares it.
      by_cases hsame : m = n ∧ key = other
      · rcases hsame with ⟨rfl, rfl⟩
        rcases child_of_remembers f m key c h halive (hsuits rfl) with hnone | hold
        · rw [after, hnone]
          exact h
        · rw [after, hold]
          exact remembers_revalidate f m c key c h
      · exact remembers_child_of_ne f n m key other c h halive fun hm heq => hsame ⟨hm, heq⟩
  | point m cursor =>
      rw [after, setCursor]
      cases f.snapshot? m with
      | none => exact h
      | some s => exact remembers_withSnapshot f n m _ key c h
  | load m => exact remembers_withSnapshot f n m _ key c h
  | walk v => exact remembers_makeView _ n key c h _ _ _ _ _
  | root d => exact remembers_makeView f n key c h _ _ _ _ _
  | mutate m mutation =>
      rcases mutation.perform_cases f m with hnone | ⟨v, d, _, hwrite⟩
      · rw [after, hnone]
        exact h
      · rw [after, hwrite]
        refine remembers_withSnapshot _ n m _ key c ?_
        exact remembers_of_views f _ n key c h fun k => view?_write f m k _
  | settle held => exact h

/-- A child that is remembered, and alive and suitable from then on, is found at every fetch that
    finds anything. -/
theorem child_of_remembers_throughout (f : Forest) (events : List Event) (n : ViewId) (key : Key)
    (c : ViewId) (h : f.Remembers n key c)
    (halive : f.Throughout events fun g _ => g.isAlive c = true)
    (hsuits : f.Throughout events fun g e => e = .fetch n key → g.Suits c n key) :
    f.Throughout events fun g e => e = .fetch n key →
      (g.child n key).1 = none ∨ (g.child n key).1 = some c := by
  -- On the events. The child is alive at each moment, so it is remembered at the next.
  induction events generalizing f with
  | nil => exact throughout_nil f _
  | cons e events ih =>
      rw [throughout_cons] at halive hsuits ⊢
      refine ⟨fun he => ?_, ?_⟩
      · exact (child_of_remembers f n key c h halive.1 (hsuits.1 he)).imp (congrArg Prod.fst)
          (congrArg Prod.fst)
      · exact ih (f.after e) (remembers_after f e n key c h halive.1 hsuits.1) halive.2 hsuits.2

end Forest

/-! ## Handing out children -/

/-- The children that a way to navigate hands out. A segment with a selector clause leads elsewhere,
    and so may a path; a rebuilt value and a list of paths are no views. -/
def Navigation.found (a : Navigation) (f : Forest) (n : ViewId) : List ViewId :=
  match a with
  | child key => (f.child n key).1.toList
  | get segment => if (Segment.parse segment).clause = none then (f.get n segment).1.toList else []
  | items => (f.items n).1.map Prod.snd
  | next => (f.next n).1.toList
  | prev => (f.prev n).1.toList
  | first => (f.first n).1.toList
  | last => (f.last n).1.toList
  | nthChild position => (f.nthChild n position).1.toList
  | _ => []

namespace Forest

/-- The child at a position is found by fetching the key there. -/
theorem moment_childAt (f : Forest) (n : ViewId) (i : Nat) (c : ViewId)
    (h : (f.childAt n i).1 = some c) :
    ∃ g key, f.Moment (Trace.childAt f n i) g (.fetch n key) ∧ (g.child n key).1 = some c := by
  unfold childAt at h
  unfold Trace.childAt
  cases hkey : (f.keys n)[i]? with
  | none => simp [hkey] at h
  | some key =>
      rw [hkey] at h
      exact ⟨f, key, moment_head f _ _, h⟩

/-- The cursor is moved first, and the child is found at the moment after that. -/
theorem moment_moveTo (f : Forest) (n : ViewId) (position : Option Nat) (c : ViewId)
    (h : (f.moveTo n position).1 = some c) :
    ∃ g key, f.Moment (Trace.moveTo f n position) g (.fetch n key) ∧
      (g.child n key).1 = some c := by
  cases position with
  | none => exact absurd h (by simp [moveTo])
  | some i =>
      rcases moment_childAt (f.setCursor n (some i)) n i c h with ⟨g, key, hmoment, hchild⟩
      exact ⟨g, key, moment_tail f g _ _ _ hmoment, hchild⟩

/-- Each child in a list of children is found in a turn of its own. -/
theorem moment_thread_child (f : Forest) (n : ViewId) (keys : List Key) (e : Key × ViewId)
    (h : some e ∈ (thread (fun g key => ((g.child n key).1.map (key, ·), (g.child n key).2))
      f keys).1) :
    ∃ g key, f.Moment (Trace.each (fun _ key => [.fetch n key]) f keys) g (.fetch n key) ∧
      (g.child n key).1 = some e.2 := by
  -- On the keys. The list comes from one turn for each of them.
  induction keys generalizing f with
  | nil => exact absurd h (by simp [thread])
  | cons key keys ih =>
      simp only [thread, List.mem_cons] at h
      rcases h with hfirst | hrest
      · rcases Option.map_eq_some_iff.mp hfirst.symm with ⟨c, hc, rfl⟩
        exact ⟨f, key, moment_head f _ _, hc⟩
      · rcases ih (f.child n key).2 hrest with ⟨g, key', hmoment, hchild⟩
        exact ⟨g, key', moment_tail f g _ _ _ hmoment, hchild⟩

/-- The last child is the one at the last position of the snapshot, wherever the cursor is. -/
theorem moment_last (f : Forest) (n c : ViewId) (h : (f.last n).1 = some c) :
    ∃ g key, f.Moment (Trace.last f n) g (.fetch n key) ∧ (g.child n key).1 = some c := by
  unfold last at h
  unfold Trace.last
  cases hlast : (f.snapshot? n).bind Snapshot.last with
  | none => simp [hlast] at h
  | some i =>
      rw [hlast] at h
      exact moment_childAt f n i c h

/-- Positions count from 1, and below that there is nothing. -/
theorem moment_nthChild (f : Forest) (n : ViewId) (position : Int64) (c : ViewId)
    (h : (f.nthChild n position).1 = some c) :
    ∃ g key, f.Moment (Trace.nthChild f n position) g (.fetch n key) ∧
      (g.child n key).1 = some c := by
  unfold nthChild at h
  unfold Trace.nthChild
  split
  · rename_i hposition
    rw [if_pos hposition] at h
    exact moment_childAt f n _ c h
  · rename_i hposition
    rw [if_neg hposition] at h
    exact absurd h (by simp)

/-- A segment without a clause is its key, and what it leads to is the child for that key. -/
theorem moment_get (f : Forest) (n : ViewId) (raw : String) (c : ViewId)
    (hplain : (Segment.parse raw).clause = none) (h : (f.get n raw).1 = some c) :
    ∃ g key, f.Moment (Trace.get f n raw) g (.fetch n key) ∧ (g.child n key).1 = some c := by
  rw [get, Segment.selector, hplain] at h
  refine ⟨f, (Segment.parse raw).key, moment_head f _ _, ?_⟩
  cases hchild : f.child n (Segment.parse raw).key with
  | mk r g =>
      rw [hchild] at h
      cases r with
      | none => exact absurd h (by simp)
      | some c' => exact h

/-- A child is handed out where it is fetched. -/
theorem exists_moment_of_mem_found (a : Navigation) (f : Forest) (n c : ViewId)
    (h : c ∈ a.found f n) :
    ∃ g key, f.Moment (a.trace f n) g (.fetch n key) ∧ (g.child n key).1 = some c := by
  cases a with
  | child key => exact ⟨f, key, moment_head f _ _, Option.mem_toList.mp h⟩
  | get segment =>
      rw [Navigation.found] at h
      split at h
      · rename_i hplain
        exact moment_get f n segment c hplain (Option.mem_toList.mp h)
      · exact absurd h List.not_mem_nil
  | items =>
      -- The children of a view are fetched in a loop, one key at a time.
      rcases List.mem_map.mp h with ⟨e, he, rfl⟩
      rcases List.mem_filterMap.mp he with ⟨r, hr, hsome⟩
      exact moment_thread_child f n (f.keys n) e (hsome ▸ hr)
  | next => exact moment_moveTo f n _ c (Option.mem_toList.mp h)
  | prev => exact moment_moveTo f n _ c (Option.mem_toList.mp h)
  | first => exact moment_childAt f n 0 c (Option.mem_toList.mp h)
  | last => exact moment_last f n c (Option.mem_toList.mp h)
  | nthChild position => exact moment_nthChild f n position c (Option.mem_toList.mp h)
  | _ => exact absurd h List.not_mem_nil

/-- A child that is handed out in a run is what a fetch of that run finds. -/
theorem exists_fetch_of_mem_found (f : Forest) (earlier rest : List Action) (n : ViewId)
    (a : Navigation) (c : ViewId) (husable : (f.run earlier).isUsable n = true)
    (h : c ∈ a.found (f.run earlier) n) :
    ∃ key before later,
      f.trace (earlier ++ .navigate n a :: rest) = before ++ .fetch n key :: later ∧
        ((f.replay before).child n key).1 = some c := by
  rcases exists_moment_of_mem_found a (f.run earlier) n c h with
    ⟨g, key, ⟨before, later, htrace, hg⟩, hchild⟩
  -- The moment lies in the trace of the action, and that one in the trace of the run.
  refine ⟨key, f.trace earlier ++ before,
    later ++ ((f.run earlier).act (.navigate n a)).trace rest, ?_, ?_⟩
  · rw [trace_append, trace, Action.trace, if_pos husable, htrace, List.append_assoc,
      List.append_assoc, List.cons_append]
  · rw [replay_append, replay_trace, ← hg, hchild]

/-- In every run, a child that is handed out is what a fetch finds. And when `c` is what a fetch
    finds for a key of the view `n`, and from then on `c` is alive, because it or a view below it
    is held, and is of the kind of the slot whenever the key is fetched from `n` and there is a
    slot to be fetched, then every such fetch finds `c` or nothing. -/
theorem child_throughout (f : Forest) (actions : List Action) :
    (∀ earlier n a rest c, actions = earlier ++ .navigate n a :: rest →
      (f.run earlier).isUsable n = true → c ∈ a.found (f.run earlier) n →
      ∃ key before later, f.trace actions = before ++ .fetch n key :: later ∧
        ((f.replay before).child n key).1 = some c) ∧
    f.replay (f.trace actions) = f.run actions ∧
    ∀ n key c before later, f.trace actions = before ++ .fetch n key :: later →
      ((f.replay before).child n key).1 = some c →
      let g := (f.replay before).after (.fetch n key)
      (g.Throughout later fun h _ => h.isAlive c = true) →
      (g.Throughout later fun h e => e = .fetch n key → h.Suits c n key) →
      g.Throughout later fun h e => e = .fetch n key →
        (h.child n key).1 = none ∨ (h.child n key).1 = some c := by
  refine ⟨?_, replay_trace f actions, ?_⟩
  · rintro earlier n a rest c rfl husable hfound
    exact exists_fetch_of_mem_found f earlier rest n a c husable hfound
  · intro n key c before later _ hchild g halive hsuits
    exact child_of_remembers_throughout g later n key c
      (remembers_of_child (f.replay before) n key c hchild) halive hsuits

/-- The only element of a list is taken out and another container put in its place, while somebody
    holds the view of the first. That view is the child again. -/
theorem child_after_reinsertion :
    let f := ofDocuments [.sequence [.container []]]
    let fetch := Event.fetch 0 (.index 0)
    let append := Mutation.append [.sequence [.null]]
    let actions : List Action :=
      [.root 0, .navigate 0 (.child (.index 0)), .hold [1], .mutate 0 .shift,
        .navigate 0 (.child (.index 0)), .mutate 0 append, .navigate 0 (.child (.index 0))]
    let later : List Event := [.settle [1], .mutate 0 .shift, fetch, .mutate 0 append, fetch]
    let g := (f.replay [.root 0]).after fetch
    f.trace actions = [.root 0] ++ fetch :: later ∧
      ((f.replay [.root 0]).child 0 (.index 0)).1 = some 1 ∧
      (g.Throughout later fun h _ => h.isAlive 1 = true) ∧
      (g.Throughout later fun h e => e = fetch → h.Suits 1 0 (.index 0)) ∧
      (g.replay (later.take 2)).keys 0 = [] ∧
      ((g.replay (later.take 4)).child 0 (.index 0)).1 = some 1 := by
  intro f fetch append actions later g
  -- Each action is possible in its forest, so the trace has an event for it.
  have htrace : f.trace actions = [.root 0] ++ fetch :: later := by
    simp only [actions, trace, Action.trace]
    rw [if_pos (by decide), if_pos (by decide), if_pos (by decide +kernel),
      if_pos (by decide +kernel), if_pos (by decide +kernel), if_pos (by decide +kernel)]
    rfl
  have hchild : ((f.replay [.root 0]).child 0 (.index 0)).1 = some 1 := rfl
  -- The view is held all the time.
  have halive : g.Throughout later fun h _ => h.isAlive 1 = true := by
    simp only [later, throughout_cons]
    exact ⟨rfl, rfl, rfl, by decide +kernel, by decide +kernel, throughout_nil _ _⟩
  -- The two fetches later on find no slot, and then a container again.
  have hsuits : g.Throughout later fun h e => e = fetch → h.Suits 1 0 (.index 0) := by
    simp only [later, throughout_cons]
    exact ⟨fun h => absurd h (by simp [fetch]), fun h => absurd h (by simp [fetch]),
      fun _ => by decide +kernel, fun h => absurd h (by simp [fetch]), fun _ => by decide +kernel,
      throughout_nil _ _⟩
  have hfound := (child_throughout f actions).2.2 0 (.index 0) 1 [.root 0] later htrace hchild
    halive hsuits (g.replay (later.take 4)) fetch ⟨later.take 4, [], rfl, rfl⟩ rfl
  refine ⟨htrace, hchild, halive, hsuits, by decide +kernel, hfound.resolve_left ?_⟩
  decide +kernel

end Forest

end DocTree
