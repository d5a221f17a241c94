import Mathlib
import DocTree.Proofs.Forest.Linked

/-!
# Sound Forests

Besides its links, a forest keeps two more promises: every snapshot knows where its last
key is, and every view looks at a document that exists. A forest that keeps all of them
is *sound*, and every reachable forest is.

The second half of this module is about what navigation leaves alone. A child is brought
up to date when it is fetched, and nothing else is loaded. So a fetch *spares* the views
that are no deeper than its parent, and whatever a program looks for below a view, the
snapshot of that view stays what it was, stale or not.

## Main definitions

* `Snapshot.Aligned`, `Forest.Sound`: what every snapshot, and every forest, promises.
* `Forest.Obtains`: how a view comes by a snapshot.
* `Forest.Refreshes`: a fetch that finds a stale view and brings it up to date.
* `Forest.Spares`: navigation that loads no view down to some depth of a document.

## Theorems

* `obtains_of_look`: all that a look does to snapshots.
* `sound_move`, `Reachable.sound`: every reachable forest is sound.
* `slotAt?_looks`: navigation changes no slot of a document that exists.
* `snapshot?_revalidate`: when bringing up to date changes anything.
* `snapshot?_child`: the snapshots after a fetch.
* `spares_child`: what fetching a child spares.
-/

namespace DocTree

/-- The snapshot knows the position of its last key. -/
def Snapshot.Aligned (s : Snapshot) : Prop :=
  s.last = if s.keys.isEmpty then none else some (s.keys.length - 1)

theorem Snapshot.aligned_ofKeys (keys : List Key) : (Snapshot.ofKeys keys).Aligned := rfl

namespace View

@[simp] theorem snapshot?_withChild (v : View) (key : Key) (c : ViewId) (alive : ViewId → Bool) :
    (v.withChild key c alive).snapshot? = v.snapshot? := by
  rcases v with ⟨d, location, own, parent, face⟩
  cases face <;> rfl

end View

namespace Forest

/-! ## Snapshots -/

theorem snapshot?_withSnapshot (f : Forest) (n m : ViewId) (s : Snapshot) :
    (f.update n (·.withSnapshot s)).snapshot? m
      = if n = m ∧ f.isContainer m = true then some s else f.snapshot? m := by
  rw [snapshot?, view?_update]
  by_cases hnm : n = m
  · cases hv : f.view? m with
    | none => simp [isContainer, snapshot?, hv]
    | some v =>
        rw [if_pos hnm, Option.map_some, Option.bind_some, View.snapshot?_withSnapshot,
          isContainer_of_view? f m v hv]
        by_cases hk : v.isContainer = true
        · rw [if_pos hk, if_pos ⟨hnm, hk⟩]
        · -- A leaf has no snapshot, neither before nor after.
          rw [if_neg hk, if_neg (fun h => hk h.2), snapshot?_of_view? f m v hv]
          cases hs : v.snapshot? with
          | none => rfl
          | some t => exact absurd (View.isContainer_of_snapshot? v t hs) hk
  · rw [if_neg hnm, if_neg (fun h => hnm h.1), snapshot?]

/-- A new view has the snapshot of its slot, if it is a container. -/
theorem snapshot?_makeView (f : Forest) (d : DocumentId) (location : List Key)
    (key : Option Key) (parent : Option ViewId) (slot : Value) (m : ViewId) :
    (f.makeView d location key parent slot).2.snapshot? m
      = if m = f.views.size then
          if slot.isContainer then some (Snapshot.ofKeys slot.keys) else none
        else f.snapshot? m := by
  rw [snapshot?, view?_makeView]
  by_cases hm : m = f.views.size
  · rw [if_pos hm, if_pos hm]
    cases slot.isContainer <;> rfl
  · rw [if_neg hm, if_neg hm, snapshot?]

theorem snapshot?_withChild (f : Forest) (n m : ViewId) (key : Key) (c : ViewId)
    (alive : ViewId → Bool) :
    (f.update n (·.withChild key c alive)).snapshot? m = f.snapshot? m := by
  rw [snapshot?, view?_update]
  by_cases hnm : n = m
  · rw [if_pos hnm, snapshot?]
    cases f.view? m <;> simp
  · rw [if_neg hnm, snapshot?]

/-- So a child that is made has the snapshot of its slot, and its parent keeps its own. -/
theorem snapshot?_adopt (f : Forest) (n m : ViewId) (v : View) (key : Key) (slot : Value) :
    (f.adopt n v key slot).snapshot? m
      = if m = f.views.size then
          if slot.isContainer then some (Snapshot.ofKeys slot.keys) else none
        else f.snapshot? m := by
  rw [adopt, snapshot?_withChild, snapshot?_makeView]

theorem snapshot?_setCursor_self (f : Forest) (n : ViewId) (s : Snapshot)
    (hs : f.snapshot? n = some s) (cursor : Option Nat) :
    (f.setCursor n cursor).snapshot? n = some { s with cursor := cursor } := by
  rcases Option.bind_eq_some_iff.mp hs with ⟨v, hv, hsnapshot⟩
  have hkind : f.isContainer n = true := by
    rw [isContainer_of_view? f n v hv, View.isContainer_of_snapshot? v s hsnapshot]
  simp only [setCursor, hs]
  rw [snapshot?_withSnapshot, if_pos ⟨rfl, hkind⟩]

theorem keys_setCursor (f : Forest) (n : ViewId) (cursor : Option Nat) :
    (f.setCursor n cursor).keys n = f.keys n := by
  cases hs : f.snapshot? n with
  | none => simp only [setCursor, hs]
  | some s => rw [keys, keys, snapshot?_setCursor_self f n s hs, hs]; rfl

/-- How a view comes by a snapshot in a look: it had it before, it is new, it loads it, or its
    cursor is moved to where the snapshot leads. -/
inductive Obtains (f : Forest) (n : ViewId) : Snapshot → Prop
  | kept (s : Snapshot) : f.snapshot? n = some s → Obtains f n s
  | made (d : DocumentId) (location : List Key) : n = f.views.size →
      Obtains f n (Snapshot.ofKeys ((f.slotAt? d location).getD .null).keys)
  | loaded : Obtains f n (Snapshot.ofKeys (f.liveKeys n))
  | moved (s : Snapshot) (position : Option Nat) : f.snapshot? n = some s →
      position = none ∨ s.following? = position ∨ s.preceding? = position →
      Obtains f n { s with cursor := position }

theorem obtains_of_look {f g : Forest} (h : Look f g) (n : ViewId) (s : Snapshot)
    (hs : g.snapshot? n = some s) : f.Obtains n s := by
  -- Where the snapshot comes from, for each kind of look. It is a new one only in the view that the
  -- look is about.
  cases h with
  | add v => exact .kept s hs
  | root d =>
      rw [root, snapshot?_makeView] at hs
      split at hs
      · rename_i hn
        split at hs
        · rw [← Option.some.inj hs]
          exact .made d [] hn
        · exact absurd hs (by simp)
      · exact .kept s hs
  | child m v key slot hv hkey hslot =>
      rw [snapshot?_adopt] at hs
      split at hs
      · rename_i hn
        split at hs
        · have hmade := Obtains.made (f := f) v.document (v.location ++ [key]) hn
          rw [hslot, Option.getD_some] at hmade
          rwa [← Option.some.inj hs]
        · exact absurd hs (by simp)
      · exact .kept s hs
  | load m =>
      rw [reload_eq_update, snapshot?_withSnapshot] at hs
      split at hs
      · rename_i hn
        rw [← Option.some.inj hs, hn.1]
        exact .loaded
      · exact .kept s hs
  | cursor m t position ht hposition =>
      rw [snapshot?_withSnapshot] at hs
      split at hs
      · rename_i hn
        rw [← Option.some.inj hs, ← hn.1]
        exact .moved t position ht hposition
      · exact .kept s hs

/-! ## Soundness -/

/-- What every reachable forest promises. -/
structure Sound (f : Forest) : Prop where
  linked : f.Linked
  aligned : ∀ n s, f.snapshot? n = some s → s.Aligned
  grounded : ∀ n v, f.view? n = some v → v.document < f.documents.size

/-- A snapshot that is loaded knows its last key, and a cursor that moves changes nothing about it.
    -/
theorem aligned_look (f g : Forest) (h : Look f g)
    (hf : ∀ n s, f.snapshot? n = some s → s.Aligned) :
    ∀ n s, g.snapshot? n = some s → s.Aligned := by
  intro n s hs
  -- The snapshot is one from before, or a new one, up to its cursor.
  cases obtains_of_look h n s hs with
  | kept _ hkept => exact hf n s hkept
  | made d location => exact Snapshot.aligned_ofKeys _
  | loaded => exact Snapshot.aligned_ofKeys _
  | moved t position ht => exact hf n t ht

/-- A view after an update is a view from before, up to its snapshot and children. -/
theorem exists_of_view?_update (f : Forest) (n m : ViewId) (change : View → View) (w : View)
    (h : ∀ v : View, v.Agrees (change v)) (hw : (f.update n change).view? m = some w) :
    ∃ v, f.view? m = some v ∧ v.Agrees w := by
  rw [view?_update] at hw
  split at hw
  · rcases Option.map_eq_some_iff.mp hw with ⟨v, hv, rfl⟩
    exact ⟨v, hv, h v⟩
  · exact ⟨w, hw, View.Agrees.refl w⟩

/-- A new view looks at a document that there is. -/
theorem grounded_look (f g : Forest) (h : Look f g)
    (hf : ∀ n v, f.view? n = some v → v.document < f.documents.size) :
    ∀ n v, g.view? n = some v → v.document < g.documents.size := by
  intro m w hw
  -- Only a new view could look at another document than the views before.
  cases h with
  | add v =>
      -- There is one more document, so each number is still good.
      rw [Array.size_push]
      exact Nat.lt_succ_of_lt (hf m w hw)
  | root d hd =>
      rw [root, view?_makeView] at hw
      split at hw
      · rw [← Option.some.inj hw]
        exact hd
      · exact hf m w hw
  | child n v key slot hv =>
      rcases exists_of_view?_update _ n m _ w (fun u => u.agrees_withChild key f.views.size _) hw
        with ⟨u, hu, hagrees⟩
      rw [hagrees.document]
      rw [view?_makeView] at hu
      split at hu
      · -- The child looks at the document of its parent.
        rw [← Option.some.inj hu]
        exact hf n v hv
      · exact hf m u hu
  | load n =>
      rcases exists_of_view?_update f n m _ w (fun u => u.agrees_withSnapshot _) hw with
        ⟨u, hu, hagrees⟩
      rw [hagrees.document]
      exact hf m u hu
  | cursor n t position ht =>
      rcases exists_of_view?_update f n m _ w (fun u => u.agrees_withSnapshot _) hw with
        ⟨u, hu, hagrees⟩
      rw [hagrees.document]
      exact hf m u hu

/-- A look keeps a forest sound. -/
theorem sound_look (f g : Forest) (h : Look f g) (hf : f.Sound) : g.Sound where
  linked := linked_move f g (.look f g h) hf.linked
  aligned := aligned_look f g h hf.aligned
  grounded := grounded_look f g h hf.grounded

theorem sound_looks (f g : Forest) (h : Looks f g) (hf : f.Sound) : g.Sound := by
  induction h with
  | refl => exact hf
  | tail _ hlook ih => exact sound_look _ _ hlook ih

/-- A move keeps a forest sound. -/
theorem sound_move (f g : Forest) (h : Move f g) (hf : f.Sound) : g.Sound := by
  refine ⟨linked_move f g h hf.linked, ?_, ?_⟩
  · cases h with
    | look _ hlook => exact aligned_look f g hlook hf.aligned
    | write n v c d =>
        intro m s hs
        -- A write changes a document and no view.
        rw [snapshot?, view?_write] at hs
        exact hf.aligned m s hs
    | settle held => exact hf.aligned
  · cases h with
    | look _ hlook => exact grounded_look f g hlook hf.grounded
    | write n v c d =>
        intro m w hw
        rw [view?_write] at hw
        -- It changes a document in its place, so there are as many as before.
        have hsize : (f.write n (.container d)).documents.size = f.documents.size := by
          unfold write
          split
          · exact Array.size_modify
          · rfl
        rw [hsize]
        exact hf.grounded m w hw
    | settle held => exact hf.grounded

theorem sound_moves (f g : Forest) (h : Moves f g) (hf : f.Sound) : g.Sound := by
  induction h with
  | refl => exact hf
  | tail _ hmove ih => exact sound_move _ _ hmove ih

/-- So every reachable forest is sound. -/
theorem Reachable.sound {f : Forest} (h : f.Reachable) : f.Sound := by
  -- At the start there are no views to promise anything of.
  refine h.induction (fun documents => ⟨?_, ?_, ?_⟩) sound_move
  · intro n v key c hv
    exact absurd hv (by simp [view?, ofDocuments])
  · intro n s hs
    exact absurd hs (by simp [snapshot?, view?, ofDocuments])
  · intro n v hv
    exact absurd hv (by simp [view?, ofDocuments])

/-! ## What looks leave alone -/

/-- A look adds one document at most. -/
theorem documents_look (f g : Forest) (h : Look f g) :
    g.documents = f.documents ∨ ∃ v, g.documents = f.documents.push v := by
  cases h with
  | add v => exact Or.inr ⟨v, rfl⟩
  | root d => exact Or.inl rfl
  | child n v key slot => exact Or.inl rfl
  | load n => exact Or.inl rfl
  | cursor n s position => exact Or.inl rfl

/-- Documents are added behind those there are. -/
theorem documents_looks (f g : Forest) (h : Looks f g) :
    f.documents.size ≤ g.documents.size ∧
      ∀ d, d < f.documents.size → g.documents[d]? = f.documents[d]? := by
  -- On the looks, each of which adds at most one document behind the others.
  induction h with
  | refl => exact ⟨Nat.le_refl _, fun d _ => rfl⟩
  | tail _ hlook ih =>
      rcases documents_look _ _ hlook with heq | ⟨v, heq⟩
      · rwa [heq]
      · rw [heq, Array.size_push]
        refine ⟨Nat.le_succ_of_le ih.1, fun d hd => ?_⟩
        rw [Array.getElem?_push, if_neg (by have := ih.1; omega), ih.2 d hd]

/-- Looks change no slot. -/
theorem slotAt?_looks (f g : Forest) (h : Looks f g) (d : DocumentId) (hd : d < f.documents.size)
    (location : List Key) : g.slotAt? d location = f.slotAt? d location := by
  rw [slotAt?, slotAt?, (documents_looks f g h).2 d hd]

/-- What a view reads does not change while a program only looks. -/
theorem value_looks (f g : Forest) (h : Looks f g) (hf : f.Sound) (n : ViewId) (v : View)
    (hv : f.view? n = some v) : g.value n = f.value n := by
  -- The view looks at the same place as before, in a document that is as before.
  rcases extends_looks f g h n v hv with ⟨w, hw, hagrees⟩
  rw [value, value, slot?_of_view? f n v hv, slot?_of_view? g n w hw, hagrees.document,
    hagrees.location, slotAt?_looks f g h v.document (hf.grounded n v hv)]

/-- Fetching the child of `p` under a key finds `b`, whose snapshot no longer has the keys of its
    slot, and loads it. -/
structure Refreshes (f : Forest) (p : ViewId) (key : Key) (b : ViewId) : Prop where
  parent : f.parent b = some p
  fetched : (f.child p key).1 = some b
  stale : f.keys b ≠ f.liveKeys b
  loaded : (f.child p key).2.snapshot? b = some (Snapshot.ofKeys (f.liveKeys b))

/-- A view is loaded exactly if its snapshot is stale. -/
theorem snapshot?_revalidate (f : Forest) (n m : ViewId) :
    (f.revalidate n).snapshot? m
      = if n = m ∧ f.isContainer n = true ∧ f.keys n ≠ f.liveKeys n then
          some (Snapshot.ofKeys (f.liveKeys n))
        else f.snapshot? m := by
  unfold revalidate
  by_cases hstale : f.isContainer n = true ∧ f.keys n ≠ f.liveKeys n
  · rw [if_pos hstale, reload_eq_update, snapshot?_withSnapshot]
    by_cases hnm : n = m
    · rw [if_pos ⟨hnm, hnm ▸ hstale.1⟩, if_pos ⟨hnm, hstale⟩]
    · rw [if_neg fun h => hnm h.1, if_neg fun h => hnm h.1]
  · rw [if_neg hstale, if_neg fun h => hstale h.2]

/-- A fetch leaves the snapshots of all views as they are, unless it finds a stale one. -/
theorem snapshot?_child (f : Forest) (hf : f.Linked) (p : ViewId) (key : Key) (b : ViewId)
    (hb : b < f.views.size) :
    (f.child p key).2.snapshot? b = f.snapshot? b ∨ f.Refreshes p key b := by
  rcases child_cases f p key with hnone | ⟨v, slot, hv, _, _, ⟨c, hc, hold⟩ | hnew⟩
  · rw [hnone]
    exact Or.inl rfl
  · by_cases hstale : c = b ∧ f.isContainer c = true ∧ f.keys c ≠ f.liveKeys c
    · have hloaded := snapshot?_revalidate f c b
      rw [if_pos hstale] at hloaded
      rcases hstale with ⟨rfl, _, hkeys⟩
      rcases hf p v key c hv (Entries.mem_of_get? _ key c hc) with ⟨w, hw, _, _, _, hparent⟩
      refine Or.inr ⟨?_, ?_, hkeys, ?_⟩
      · rw [parent_of_view? f c w hw, hparent]
      · rw [hold]
      · rw [hold, hloaded]
    · rw [hold, snapshot?_revalidate, if_neg hstale]
      exact Or.inl rfl
  · rw [hnew, snapshot?_adopt, if_neg (Nat.ne_of_lt hb)]
    exact Or.inl rfl

/-- Going from `f` to `g` makes no document, and loads no view of other documents than `d`, or of
    `d` down to this depth. -/
structure Spares (f g : Forest) (d : DocumentId) (depth : Nat) : Prop where
  glances : Glances f g
  snapshots : ∀ m w, f.view? m = some w → (w.document = d → w.location.length ≤ depth) →
    g.snapshot? m = f.snapshot? m

theorem Spares.refl (f : Forest) (d : DocumentId) (depth : Nat) : f.Spares f d depth :=
  ⟨.refl, fun _ _ _ _ => rfl⟩

theorem Spares.trans {f g h : Forest} {d : DocumentId} {depth : Nat} (hfg : f.Spares g d depth)
    (hgh : g.Spares h d depth) : f.Spares h d depth := by
  refine ⟨hfg.glances.trans hgh.glances, fun m w hw hdepth => ?_⟩
  -- The view is at the same place in between, so it is spared there as well.
  rcases extends_looks f g (looks_of_glances f g hfg.glances) m w hw with ⟨w', hw', hagrees⟩
  rw [hgh.snapshots m w' hw', hfg.snapshots m w hw hdepth]
  rw [hagrees.document, hagrees.location]
  exact hdepth

theorem Spares.mono {f g : Forest} {d : DocumentId} {depth depth' : Nat}
    (h : f.Spares g d depth) (hle : depth' ≤ depth) : f.Spares g d depth' :=
  ⟨h.glances, fun m w hw hdepth => h.snapshots m w hw fun hd => (hdepth hd).trans hle⟩

/-- Fetching a child loads no view that is no deeper than its parent. -/
theorem spares_child (f : Forest) (hf : f.Linked) (n : ViewId) (v : View) (key : Key)
    (hv : f.view? n = some v) :
    f.Spares (f.child n key).2 v.document v.location.length := by
  refine ⟨glances_child f n key, fun m w hw hdepth => ?_⟩
  refine (snapshot?_child f hf n key m (lt_of_view? f m w hw)).resolve_right fun hload => ?_
  -- Only the child is loaded, and it is deeper.
  rcases isChild_of_child f hf n v key m _ hv (Prod.ext hload.fetched rfl) with
    ⟨w', hw', hdocument, hlocation, _, _⟩
  rcases extends_looks f _ (looks_of_glances f _ (glances_child f n key)) m w hw with
    ⟨w'', hw'', hagrees⟩
  rw [hw', Option.some.injEq] at hw''
  subst hw''
  have hle := hdepth (hagrees.document.symm.trans hdocument)
  rw [← hagrees.location, hlocation, List.length_append, List.length_singleton] at hle
  exact absurd hle (Nat.not_succ_le_self _)

end Forest

end DocTree
