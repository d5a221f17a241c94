import Mathlib
import DocTree.Proofs.Forest.Run

/-!
# Remembered Children

A view may remember a child for a long time, and by then the slot of the child may
hold anything. What does not change is where the child looks: one key further down
than its parent, in the same document. A forest in which every remembered child does
so is *linked*, and every reachable forest is.

That is all it takes for a fetch to be right. The kind of a remembered child is compared
with that of the slot, and its snapshot is brought up to date, so whatever the child
had seen before, the view that is handed out *shows* the slot as it is now.

## Main definitions

* `Forest.Extends`: views are kept, up to their snapshots and children.
* `Forest.IsChild`, `Forest.Linked`: where remembered children look.
* `Forest.Shows`: a view that shows what its slot holds now.

## Theorems

* `extends_move`, `extends_moves`: a move keeps every view, and so does a sequence of them.
* `linked_move`, `Reachable.linked`: every reachable forest is linked.
* `shows_child`: a fetched child shows its slot.
-/

namespace DocTree

namespace Forest

/-- Every view of `f` is a view of `g`, up to its snapshot and the children it remembers. -/
def Extends (f g : Forest) : Prop :=
  ∀ n v, f.view? n = some v → ∃ w, g.view? n = some w ∧ v.Agrees w

/-- The view `c` looks one key further down than the view `n`, which is `v`. -/
def IsChild (f : Forest) (c n : ViewId) (v : View) (key : Key) : Prop :=
  ∃ w, f.view? c = some w ∧ w.document = v.document ∧ w.location = v.location ++ [key] ∧
    w.key = some key ∧ w.parent = some n

/-- Every remembered child looks one key further down than the view that remembers it. -/
def Linked (f : Forest) : Prop :=
  ∀ n v key c, f.view? n = some v → (key, c) ∈ v.children → f.IsChild c n v key

/-! ## Steps keep views -/

theorem extends_of_views (f g : Forest) (h : ∀ n, g.view? n = f.view? n) : f.Extends g :=
  fun n v hv => ⟨v, by rw [h, hv], View.Agrees.refl v⟩

/-- A change of one view that agrees with it keeps every view. -/
theorem extends_update (f : Forest) (n : ViewId) (change : View → View)
    (h : ∀ v : View, v.Agrees (change v)) : f.Extends (f.update n change) := by
  intro m v hv
  rw [view?_update, hv]
  by_cases hm : n = m
  · exact ⟨change v, by rw [if_pos hm, Option.map_some], h v⟩
  · exact ⟨v, by rw [if_neg hm], View.Agrees.refl v⟩

/-- Making a view keeps those there are. -/
theorem extends_makeView (f : Forest) (d : DocumentId) (location : List Key)
    (key : Option Key) (parent : Option ViewId) (slot : Value) :
    f.Extends (f.makeView d location key parent slot).2 := by
  intro m v hv
  have hne : m ≠ f.views.size := Nat.ne_of_lt (lt_of_view? f m v hv)
  exact ⟨v, by rw [view?_makeView, if_neg hne, hv], View.Agrees.refl v⟩

theorem Extends.trans {f g h : Forest} (hfg : f.Extends g) (hgh : g.Extends h) :
    f.Extends h := by
  intro n u hu
  rcases hfg n u hu with ⟨v, hv, huv⟩
  rcases hgh n v hv with ⟨w, hw, hvw⟩
  exact ⟨w, hw, huv.trans hvw⟩

theorem extends_adopt (f : Forest) (n : ViewId) (v : View) (key : Key) (slot : Value) :
    f.Extends (f.adopt n v key slot) :=
  (extends_makeView f _ _ _ _ _).trans
    (extends_update _ n _ fun u => u.agrees_withChild key f.views.size _)

/-- A move keeps every view, up to its snapshot and the children it remembers. -/
theorem extends_move (f g : Forest) (h : Move f g) : f.Extends g := by
  cases h with
  | look _ hlook =>
      cases hlook with
      | add v => exact extends_of_views _ _ fun _ => rfl
      | root d => exact extends_makeView f d [] none none _
      | child n v key slot => exact extends_adopt f n v key slot
      | load n => exact extends_update f n _ fun v => v.agrees_withSnapshot _
      | cursor n s position => exact extends_update f n _ fun v => v.agrees_withSnapshot _
  | write n v c d => exact extends_of_views _ _ fun m => view?_write f n m _
  | settle held => exact extends_of_views _ _ fun _ => rfl

theorem extends_moves (f g : Forest) (h : Moves f g) : f.Extends g := by
  induction h with
  | refl => exact extends_of_views f f fun _ => rfl
  | tail _ hmove ih => exact ih.trans (extends_move _ _ hmove)

theorem extends_looks (f g : Forest) (h : Looks f g) : f.Extends g :=
  extends_moves f g (moves_of_looks f g h)

/-! ## Steps keep links -/

/-- A child stays a child while both views are kept. -/
theorem IsChild.mono {f g : Forest} {c n : ViewId} {v v' : View} {key : Key}
    (h : f.IsChild c n v key) (hext : f.Extends g) (hv : v.Agrees v') : g.IsChild c n v' key := by
  rcases h with ⟨w, hw, hdocument, hlocation, hkey, hparent⟩
  rcases hext c w hw with ⟨w', hw', hagrees⟩
  refine ⟨w', hw', ?_, ?_, ?_, ?_⟩
  · rw [hagrees.document, hdocument, hv.document]
  · rw [hagrees.location, hlocation, hv.location]
  · rw [hagrees.key, hkey]
  · rw [hagrees.parent, hparent]

/-- Links are kept when every child that is remembered afterwards was remembered before or is
    a child for another reason. -/
theorem linked_of_extends (f g : Forest) (hf : f.Linked) (hext : f.Extends g)
    (h : ∀ n w key c, g.view? n = some w → (key, c) ∈ w.children →
      g.IsChild c n w key ∨ ∃ v, f.view? n = some v ∧ v.Agrees w ∧ (key, c) ∈ v.children) :
    g.Linked := by
  intro n w key c hw hmem
  rcases h n w key c hw hmem with hchild | ⟨v, hv, hagrees, hold⟩
  · exact hchild
  · exact (hf n v key c hv hold).mono hext hagrees

theorem linked_of_views (f g : Forest) (hf : f.Linked) (h : ∀ n, g.view? n = f.view? n) :
    g.Linked := by
  refine linked_of_extends f g hf (extends_of_views f g h) fun n w key c hw hmem => Or.inr ?_
  exact ⟨w, by rw [← h, hw], View.Agrees.refl w, hmem⟩

/-- A new snapshot changes no children. -/
theorem linked_withSnapshot (f : Forest) (hf : f.Linked) (n : ViewId) (s : Snapshot) :
    (f.update n (·.withSnapshot s)).Linked := by
  refine linked_of_extends f _ hf
    (extends_update f n _ fun v => v.agrees_withSnapshot s) fun m w key c hw hmem => Or.inr ?_
  rw [view?_update] at hw
  -- The one view that changed remembers the same children.
  by_cases hm : n = m
  · rw [if_pos hm, Option.map_eq_some_iff] at hw
    rcases hw with ⟨v, hv, rfl⟩
    exact ⟨v, hv, v.agrees_withSnapshot s, by simpa using hmem⟩
  · rw [if_neg hm] at hw
    exact ⟨w, hw, View.Agrees.refl w, hmem⟩

/-- A view that is made remembers nothing yet. -/
theorem linked_makeView (f : Forest) (hf : f.Linked) (d : DocumentId) (location : List Key)
    (key : Option Key) (parent : Option ViewId) (slot : Value) :
    (f.makeView d location key parent slot).2.Linked := by
  refine linked_of_extends f _ hf (extends_makeView f d location key parent slot)
    fun m w k c hw hmem => Or.inr ?_
  rw [view?_makeView] at hw
  by_cases hm : m = f.views.size
  · rw [if_pos hm, Option.some.injEq] at hw
    subst hw
    -- A view starts without children, whether it is one of a container or of a leaf.
    cases hslot : slot.isContainer <;> simp [View.children, hslot] at hmem
  · rw [if_neg hm] at hw
    exact ⟨w, hw, View.Agrees.refl w, hmem⟩

/-- The view that is made for a child, seen in the forest that has adopted it. -/
theorem view?_adopt (f : Forest) (n : ViewId) (v : View) (key : Key) (slot : Value)
    (hv : f.view? n = some v) :
    (f.adopt n v key slot).view? f.views.size
      = some ⟨v.document, v.location ++ [key], some key, some n,
          if slot.isContainer then .container (Snapshot.ofKeys slot.keys) [] else .leaf⟩ := by
  have hne : n ≠ f.views.size := Nat.ne_of_lt (lt_of_view? f n v hv)
  rw [adopt, view?_update, if_neg hne, view?_makeView, if_pos rfl]

/-- The view that is made for a child looks one key further down. -/
theorem isChild_adopt (f : Forest) (n : ViewId) (v w : View) (key : Key) (slot : Value)
    (hv : f.view? n = some v) (hw : v.Agrees w) :
    (f.adopt n v key slot).IsChild f.views.size n w key := by
  refine ⟨_, view?_adopt f n v key slot hv, ?_, ?_, rfl, rfl⟩
  · exact hw.document.symm
  · simp only [hw.location]

/-- Remembering a child that has just been made keeps links. -/
theorem linked_adopt (f : Forest) (hf : f.Linked) (n : ViewId) (v : View) (key : Key)
    (slot : Value) (hv : f.view? n = some v) : (f.adopt n v key slot).Linked := by
  have hmade := linked_makeView f hf v.document (v.location ++ [key]) (some key) (some n) slot
  refine linked_of_extends _ _ hmade
    (extends_update _ n _ fun u => u.agrees_withChild key f.views.size _)
    fun m w k c hw hmem => ?_
  rw [adopt, view?_update] at hw
  by_cases hm : n = m
  · subst hm
    rw [if_pos rfl, view?_makeView, if_neg (Nat.ne_of_lt (lt_of_view? f n v hv)), hv,
      Option.map_some, Option.some.injEq] at hw
    subst hw
    -- The parent remembers the new child and those it had.
    rcases v.mem_children_withChild key f.views.size _ (k, c) hmem with hnew | hold
    · injection hnew with hk hc
      subst hk hc
      exact Or.inl (isChild_adopt f n v _ k slot hv (v.agrees_withChild k f.views.size _))
    · refine Or.inr ⟨v, ?_, v.agrees_withChild key f.views.size _, hold⟩
      rw [view?_makeView, if_neg (Nat.ne_of_lt (lt_of_view? f n v hv)), hv]
  · rw [if_neg hm] at hw
    exact Or.inr ⟨w, hw, View.Agrees.refl w, hmem⟩

/-- A move keeps links. -/
theorem linked_move (f g : Forest) (h : Move f g) (hf : f.Linked) : g.Linked := by
  cases h with
  | look _ hlook =>
      cases hlook with
      | add v => exact linked_of_views f _ hf fun _ => rfl
      | root d => exact linked_makeView f hf d [] none none _
      | child n v key slot hv => exact linked_adopt f hf n v key slot hv
      | load n => exact linked_withSnapshot f hf n _
      | cursor n s position => exact linked_withSnapshot f hf n _
  | write n v c d => exact linked_of_views f _ hf fun m => view?_write f n m _
  | settle held => exact linked_of_views f _ hf fun _ => rfl

theorem linked_looks (f g : Forest) (h : Looks f g) (hf : f.Linked) : g.Linked := by
  induction h with
  | refl => exact hf
  | tail _ hlook ih => exact linked_move _ _ (.look _ _ hlook) ih

theorem Reachable.linked {f : Forest} (h : f.Reachable) : f.Linked := by
  refine h.induction (fun documents => ?_) linked_move
  intro n v key c hv
  exact absurd hv (by simp [view?, ofDocuments])

/-! ## Fetched children -/

/-- The view looks at this location of this document, which holds `u` now, and its kind and
    its snapshot are those of `u`. -/
structure Shows (f : Forest) (n : ViewId) (d : DocumentId) (location : List Key) (u : Value) :
    Prop where
  view : ∃ v, f.view? n = some v ∧ v.document = d ∧ v.location = location
  slot : f.slotAt? d location = some u
  value : f.value n = u
  kind : f.isContainer n = u.isContainer
  keys : f.keys n = u.keys

/-- A view that shows its slot has the keys under which there is something. -/
theorem mem_keys_of_shows (f : Forest) (n : ViewId) (d : DocumentId) (location : List Key)
    (u : Value) (h : f.Shows n d location u) (key : Key) :
    key ∈ f.keys n ↔ (u.child? key).isSome := by
  rw [h.keys]
  -- Only a container has keys, and only a container has a child under one.
  cases u with
  | container c =>
      rw [Value.child?_container, Entries.isSome_get?_iff]
      exact Iff.rfl
  | _ => simp [Value.keys, Value.entries?, Value.child?]

/-- What a view needs in order to show its slot: the right kind and, if it has a snapshot, the
    right keys in it. -/
theorem shows_of_view? (f : Forest) (n : ViewId) (w : View) (u : Value)
    (hw : f.view? n = some w) (hslot : f.slotAt? w.document w.location = some u)
    (hkind : w.isContainer = u.isContainer)
    (hkeys : ∀ s, w.snapshot? = some s → s.keys = u.keys) :
    f.Shows n w.document w.location u := by
  refine ⟨⟨w, hw, rfl, rfl⟩, hslot, ?_, ?_, ?_⟩
  · exact value_eq_of_slot? f n u (by rw [slot?_of_view? f n w hw, hslot])
  · rw [isContainer_of_view? f n w hw, hkind]
  · rw [keys, snapshot?_of_view? f n w hw]
    cases hs : w.snapshot? with
    | some s => exact hkeys s hs
    | none =>
        -- A leaf has no snapshot, and then the value is no container and has no keys.
        have hleaf : w.isContainer = false := View.isContainer_eq_false_of_snapshot? w hs
        rw [hleaf] at hkind
        exact (Value.keys_of_isContainer_eq_false u hkind.symm).symm

/-- A child that was remembered shows its slot once it is brought up to date. -/
theorem shows_revalidate (f : Forest) (c n : ViewId) (v : View) (key : Key) (u : Value)
    (hchild : f.IsChild c n v key)
    (hslot : f.slotAt? v.document (v.location ++ [key]) = some u)
    (hkind : f.isContainer c = u.isContainer) :
    (f.revalidate c).Shows c v.document (v.location ++ [key]) u := by
  rcases hchild with ⟨w, hw, hdocument, hlocation, _, _⟩
  rw [← hdocument, ← hlocation] at hslot ⊢
  rw [isContainer_of_view? f c w hw] at hkind
  have hlive : f.liveKeys c = u.keys := by
    rw [liveKeys, value_eq_of_slot? f c u (by rw [slot?_of_view? f c w hw, hslot])]
  unfold revalidate
  split
  · -- Stale: the snapshot is replaced by the live keys.
    have hagrees := w.agrees_withSnapshot (Snapshot.ofKeys u.keys)
    rw [← hagrees.document, ← hagrees.location]
    refine shows_of_view? _ c _ u ?_ ?_ ?_ ?_
    · rw [reload_eq_update, view?_update, if_pos rfl, hw, Option.map_some, hlive]
    · rw [hagrees.document, hagrees.location]
      exact hslot
    · rw [hagrees.kind, hkind]
    · intro s hs
      rw [View.snapshot?_withSnapshot] at hs
      split at hs
      · injection hs with hs
        rw [← hs, Snapshot.keys_ofKeys]
      · exact absurd hs (by simp)
  · rename_i hfresh
    refine shows_of_view? f c w u hw hslot hkind fun s hs => ?_
    -- Other keys than the live ones would have made it stale.
    by_contra hne
    refine hfresh ⟨?_, ?_⟩
    · rw [isContainer_of_view? f c w hw]
      exact View.isContainer_of_snapshot? w s hs
    · rw [hlive, keys, snapshot?_of_view? f c w hw, hs]
      exact hne

/-- A view shows its slot as long as it is as it was made. -/
theorem shows_of_face (f : Forest) (n : ViewId) (w : View) (u : Value)
    (hw : f.view? n = some w) (hslot : f.slotAt? w.document w.location = some u)
    (hface : w.face =
      if u.isContainer then .container (Snapshot.ofKeys u.keys) [] else .leaf) :
    f.Shows n w.document w.location u := by
  refine shows_of_view? f n w u hw hslot ?_ fun s hs => ?_
  · rw [View.isContainer, hface]
    cases u.isContainer <;> rfl
  · rw [View.snapshot?, hface] at hs
    cases hu : u.isContainer with
    | true =>
        rw [hu, if_pos rfl, Option.some.injEq] at hs
        rw [← hs, Snapshot.keys_ofKeys]
    | false =>
        rw [hu, if_neg (by simp)] at hs
        exact absurd hs (by simp)

/-- A child that is made shows its slot. -/
theorem shows_adopt (f : Forest) (n : ViewId) (v : View) (key : Key) (u : Value)
    (hv : f.view? n = some v)
    (hslot : f.slotAt? v.document (v.location ++ [key]) = some u) :
    (f.adopt n v key u).Shows f.views.size v.document (v.location ++ [key]) u :=
  shows_of_face _ _ _ u (view?_adopt f n v key u hv) hslot rfl

/-- A new view of a document shows it. -/
theorem shows_root (f : Forest) (d : DocumentId) (u : Value) (h : f.slotAt? d [] = some u) :
    (f.root d).2.Shows (f.root d).1 d [] u := by
  have hview : (f.root d).2.view? (f.root d).1
      = some ⟨d, [], none, none,
          if u.isContainer then .container (Snapshot.ofKeys u.keys) [] else .leaf⟩ := by
    rw [root, view?_makeView, h, Option.getD_some]
    exact if_pos rfl
  exact shows_of_face _ _ _ u hview h rfl

theorem documents_revalidate (f : Forest) (n : ViewId) :
    (f.revalidate n).documents = f.documents := by
  unfold revalidate
  split <;> rfl

/-- The child that a fetch finds is a child. -/
theorem isChild_of_child (f : Forest) (hf : f.Linked) (n : ViewId) (v : View) (key : Key)
    (c : ViewId) (g : Forest) (hv : f.view? n = some v) (h : f.child n key = (some c, g)) :
    g.IsChild c n v key := by
  have hext := extends_looks f _ (looks_of_glances f _ (glances_child f n key))
  rcases child_cases f n key with hnone | ⟨v', slot, hv', _, _, ⟨c', hc', hold⟩ | hnew⟩
  · rw [hnone] at h
    exact absurd (congrArg Prod.fst h) (by simp)
  · rw [h] at hext
    rw [hold, Prod.mk.injEq, Option.some.injEq] at h
    rw [hv, Option.some.injEq] at hv'
    rw [← hv'] at hc'
    rw [← h.1]
    exact (hf n v key c' hv (Entries.mem_of_get? _ key c' hc')).mono hext (View.Agrees.refl v)
  · rw [hnew, Prod.mk.injEq, Option.some.injEq] at h
    rw [hv, Option.some.injEq] at hv'
    rw [← h.1, ← h.2, ← hv']
    exact isChild_adopt f n v v key slot hv (View.Agrees.refl v)

/-- A child is fetched exactly if its key is in the snapshot and its slot exists. It then shows
    its slot, and no document has changed. -/
theorem shows_child (f : Forest) (hf : f.Linked) (n : ViewId) (v : View) (key : Key) (u : Value)
    (hv : f.view? n = some v) (hkey : key ∈ f.keys n)
    (hslot : f.slotAt? v.document (v.location ++ [key]) = some u) :
    ∃ c g, f.child n key = (some c, g) ∧ g.documents = f.documents ∧
      g.Shows c v.document (v.location ++ [key]) u := by
  rw [child_of_slot f n v key u hv hkey hslot]
  cases hcached : f.cached? v.children key u.isContainer with
  | none => exact ⟨_, _, rfl, rfl, shows_adopt f n v key u hv hslot⟩
  | some c =>
      rcases get?_of_cached? f v.children key u.isContainer c hcached with ⟨hget, hkind⟩
      exact ⟨c, _, rfl, documents_revalidate f c,
        shows_revalidate f c n v key u (hf n v key c hv (Entries.mem_of_get? _ key c hget)) hslot
          hkind⟩

end Forest

end DocTree
