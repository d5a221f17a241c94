import Mathlib
import DocTree.Proofs.Forest.Sound
import DocTree.Proofs.Forest.Trace

/-!
# When a View Gets a New Snapshot

Reading is not pure here: a fetch may load a view that somebody else holds. This module
says when, moment by moment. Besides what a program does to a view itself, there is one
way only: the view is fetched from its parent while its snapshot differs from the live
keys. It then has these keys, and its cursor is unset.

A query changes no document that exists. So a view that has been brought up to date in the
course of an action stays so to the end of it, and one that was up to date before the
action is not loaded at all; in particular its cursor stays where it is. A mutation through
one view never loads another.

## Main definitions

* `Forest.Refreshed`: a stale view was fetched and brought up to date.

## Theorems

* `snapshot?_after`: what one event does to the snapshots of views that it does not touch.
* `snapshot?_replay_of_fresh`, `snapshot?_replay`: what a query does to them.
* `snapshot?_act_eq_or_refreshed`: what an action does to them.
-/

namespace DocTree

namespace Forest

/-- From `f` on, these events fetch `b` at a moment when it still has the snapshot that it has in
    `f`, and that is stale. In the end its snapshot is the live keys, and its cursor is unset. -/
def Refreshed (f : Forest) (events : List Event) (b : ViewId) : Prop :=
  f.keys b ≠ f.liveKeys b ∧
    (∃ g p key, f.Moment events g (.fetch p key) ∧ g.Refreshes p key b ∧
      g.snapshot? b = f.snapshot? b) ∧
    (f.replay events).snapshot? b = some (Snapshot.ofKeys ((f.replay events).liveKeys b))

/-! ## One event -/

/-- The cursor of another view is in another snapshot. -/
theorem snapshot?_setCursor_of_ne (f : Forest) (n m : ViewId) (cursor : Option Nat)
    (h : n ≠ m) : (f.setCursor n cursor).snapshot? m = f.snapshot? m := by
  unfold setCursor
  split
  · rw [snapshot?_withSnapshot, if_neg fun hnm => h hnm.1]
  · rfl

/-- Making a root loads no view there is. -/
theorem snapshot?_root_of_lt (f : Forest) (d : DocumentId) (m : ViewId)
    (h : m < f.views.size) : (f.root d).2.snapshot? m = f.snapshot? m := by
  rw [root, snapshot?_makeView, if_neg (Nat.ne_of_lt h)]

/-- A mutation through another view loads that view only. -/
theorem snapshot?_perform_of_ne (f : Forest) (n m : ViewId) (mutation : Mutation) (h : n ≠ m) :
    (mutation.perform f n).2.snapshot? m = f.snapshot? m := by
  rcases mutation.perform_cases f n with hnone | ⟨v, c, _, hwrite⟩
  · rw [hnone]
  · rw [hwrite, reload_eq_update, snapshot?_withSnapshot, if_neg fun hnm => h hnm.1, snapshot?,
      view?_write, snapshot?]

/-- An event that does not touch a view leaves its snapshot as it is, unless it fetches the view
    while that is stale. -/
theorem snapshot?_after (f : Forest) (hf : f.Linked) (e : Event) (b : ViewId)
    (hb : b < f.views.size) (h : ¬ e.Touches b) :
    (f.after e).snapshot? b = f.snapshot? b ∨
      ∃ p key, e = .fetch p key ∧ f.Refreshes p key b := by
  -- Only a fetch can load a view that it is not asked of. Every other event has its own view or
  -- none.
  cases e with
  | fetch p key =>
      exact (snapshot?_child f hf p key b hb).imp_right fun hload => ⟨p, key, rfl, hload⟩
  | point n cursor => exact Or.inl (snapshot?_setCursor_of_ne f n b cursor h)
  | load n =>
      rw [after, reload_eq_update, snapshot?_withSnapshot, if_neg fun hnb => h hnb.1]
      exact Or.inl rfl
  | walk v => exact Or.inl (snapshot?_root_of_lt _ _ b hb)
  | root d => exact Or.inl (snapshot?_root_of_lt f d b hb)
  | mutate n m => exact Or.inl (snapshot?_perform_of_ne f n b m h)
  | settle held => exact Or.inl rfl

/-! ## Queries -/

/-- An event of a query only looks. -/
theorem looks_after (f : Forest) (e : Event) (h : e.IsQuery) : Looks f (f.after e) := by
  cases e with
  | fetch n key => exact looks_of_glances _ _ (glances_child f n key)
  | walk v => exact looks_walk f v
  | _ => exact absurd h id

theorem looks_replay (f : Forest) (events : List Event) (h : ∀ e ∈ events, e.IsQuery) :
    Looks f (f.replay events) := by
  induction events generalizing f with
  | nil => exact .refl
  | cons e events ih =>
      rw [List.forall_mem_cons] at h
      exact (looks_after f e h.1).trans (ih _ h.2)

theorem size_le_of_looks (f g : Forest) (h : Looks f g) : f.views.size ≤ g.views.size := by
  -- A view past the end of the later forest would have to be kept in it.
  by_contra hlt
  have hview : f.view? g.views.size = some f.views[g.views.size] :=
    Array.getElem?_eq_getElem (Nat.lt_of_not_le hlt)
  rcases extends_looks f g h g.views.size _ hview with ⟨w, hw, _⟩
  exact absurd (lt_of_view? g _ w hw) (Nat.lt_irrefl _)

/-- Looking changes no live keys. -/
theorem liveKeys_looks (f g : Forest) (h : Looks f g) (hf : f.Sound) (b : ViewId)
    (hb : b < f.views.size) : g.liveKeys b = f.liveKeys b := by
  rw [liveKeys, liveKeys,
    value_looks f g h hf b f.views[b] (Array.getElem?_eq_getElem hb)]

theorem keys_eq_of_snapshot? (f g : Forest) (b : ViewId) (h : g.snapshot? b = f.snapshot? b) :
    g.keys b = f.keys b := by
  rw [keys, keys, h]

/-- A query loads no view that is up to date. -/
theorem snapshot?_replay_of_fresh (f : Forest) (hf : f.Sound) (events : List Event)
    (hquery : ∀ e ∈ events, e.IsQuery) (b : ViewId) (hb : b < f.views.size)
    (hfresh : f.keys b = f.liveKeys b) : (f.replay events).snapshot? b = f.snapshot? b := by
  induction events generalizing f with
  | nil => rfl
  | cons e events ih =>
      rw [List.forall_mem_cons] at hquery
      have hlooks := looks_after f e hquery.1
      -- Being up to date rules the fetch out that would load the view, and lasts over the event.
      have hstep : (f.after e).snapshot? b = f.snapshot? b := by
        rcases snapshot?_after f hf.linked e b hb (e.not_touches_of_isQuery b hquery.1) with
          heq | ⟨p, key, _, hload⟩
        · exact heq
        · exact absurd hfresh hload.stale
      rw [replay_cons, ih (f.after e) (sound_looks _ _ hlooks hf) hquery.2
        (hb.trans_le (size_le_of_looks _ _ hlooks)), hstep]
      rw [liveKeys_looks f _ hlooks hf b hb, ← hfresh, keys_eq_of_snapshot? f _ b hstep]

/-- What is refreshed after an event that changes neither its snapshot nor its slot is refreshed
    from before that event on. -/
theorem Refreshed.cons {f : Forest} {e : Event} {events : List Event} {b : ViewId}
    (h : (f.after e).Refreshed events b) (hstep : (f.after e).snapshot? b = f.snapshot? b)
    (hlive : (f.after e).liveKeys b = f.liveKeys b) : f.Refreshed (e :: events) b := by
  rcases h with ⟨hstale, ⟨g, p, key, hmoment, hload, hsnapshot⟩, hloaded⟩
  rw [keys_eq_of_snapshot? f _ b hstep, hlive] at hstale
  exact ⟨hstale, ⟨g, p, key, moment_tail f g e _ events hmoment, hload, hsnapshot.trans hstep⟩,
    hloaded⟩

/-- A query loads a view only at a moment when it fetches it and the view is stale, and leaves it up
    to date then. -/
theorem snapshot?_replay (f : Forest) (hf : f.Sound) (events : List Event)
    (hquery : ∀ e ∈ events, e.IsQuery) (b : ViewId) (hb : b < f.views.size) :
    (f.replay events).snapshot? b = f.snapshot? b ∨ f.Refreshed events b := by
  induction events generalizing f with
  | nil => exact Or.inl rfl
  | cons e events ih =>
      rw [List.forall_mem_cons] at hquery
      have hlooks := looks_after f e hquery.1
      have hsound := sound_looks _ _ hlooks hf
      have hlive := liveKeys_looks f _ hlooks hf b hb
      have hb' := hb.trans_le (size_le_of_looks _ _ hlooks)
      rcases snapshot?_after f hf.linked e b hb (e.not_touches_of_isQuery b hquery.1) with
        hstep | ⟨p, key, rfl, hload⟩
      · rcases ih (f.after e) hsound hquery.2 hb' with hrest | hrest
        · exact Or.inl (hrest.trans hstep)
        · exact Or.inr (hrest.cons hstep hlive)
      · -- The view is up to date from here on, so the rest of the query leaves it alone.
        have hfresh : (f.after (.fetch p key)).keys b = (f.after (.fetch p key)).liveKeys b := by
          rw [hlive, keys, after, hload.loaded]
          rfl
        refine Or.inr ⟨hload.stale, ⟨f, p, key, moment_head f _ _, hload, rfl⟩, ?_⟩
        rw [replay_cons, snapshot?_replay_of_fresh _ hsound events hquery.2 b hb' hfresh,
          liveKeys_looks _ _ (looks_replay _ events hquery.2) hsound b hb', hlive]
        exact hload.loaded

/-! ## Actions -/

/-- Navigating loads a view that it does not touch only as a query does. -/
theorem snapshot?_navigation (f : Forest) (hf : f.Sound) (n : ViewId) (a : Navigation)
    (b : ViewId) (hb : b < f.views.size) (h : n = b → ¬ a.MovesOrLoads) :
    (f.replay (a.trace f n)).snapshot? b = f.snapshot? b ∨ f.Refreshed (a.trace f n) b := by
  rcases trace_cases a f n with htrace | ⟨hmoves, e, events, hevents, htouches, hlooks, htrace⟩
  · exact snapshot?_replay f hf _ htrace.queries b hb
  · -- What is done first is done to another view, and a query follows.
    have hne : ¬ e.Touches b := fun htouch => h (e.eq_of_touches n b htouches htouch) hmoves
    have hstep : (f.after e).snapshot? b = f.snapshot? b := by
      rcases snapshot?_after f hf.linked e b hb hne with heq | ⟨p, key, rfl, _⟩
      · exact heq
      · exact absurd htouches id
    rw [hevents, replay_cons, ← hstep]
    refine (snapshot?_replay (f.after e) (sound_looks _ _ hlooks hf) events htrace.queries b
      (hb.trans_le (size_le_of_looks _ _ hlooks))).imp_right fun hrest => ?_
    exact hrest.cons hstep (liveKeys_looks f _ hlooks hf b hb)

/-- An action changes the snapshot of a view, its cursor included, only if it is asked of that view
    and writes through it, loads it or moves its cursor, or if it fetches the view from its parent
    at a moment when its snapshot differs from its live keys. Then the snapshot becomes the live
    keys, and the cursor is unset. So a mutation through another view does not change it, and
    navigating does not change it while it is up to date, nor any document there is. -/
theorem snapshot?_act_eq_or_refreshed {f : Forest} (hf : f.Reachable) (a : Action) (b : ViewId)
    (hb : b < f.views.size) :
    let g := f.act a
    f.replay (a.trace f) = g ∧
    (g.snapshot? b = f.snapshot? b ∨ a.Touches b ∨ f.Refreshed (a.trace f) b) ∧
    (∀ n m, a = .mutate n m → n ≠ b → g.snapshot? b = f.snapshot? b) ∧
    (∀ n q, a = .navigate n q →
      (¬ a.Touches b → f.keys b = f.liveKeys b → g.snapshot? b = f.snapshot? b) ∧
        ∀ d, d < f.documents.size → g.documents[d]? = f.documents[d]?) := by
  have hmutate : ∀ n m, n ≠ b → (f.act (.mutate n m)).snapshot? b = f.snapshot? b := by
    intro n m hne
    simp only [act]
    split
    · exact snapshot?_perform_of_ne f n b m hne
    · rfl
  have hcases : (f.act a).snapshot? b = f.snapshot? b ∨ a.Touches b ∨
      f.Refreshed (a.trace f) b := by
    -- What is left are actions that do not touch the view.
    by_cases htouches : a.Touches b
    · exact Or.inr (Or.inl htouches)
    · rw [or_iff_right htouches]
      cases a with
      | walk v => exact Or.inl (snapshot?_root_of_lt _ _ b hb)
      | root d =>
          simp only [act]
          split
          · exact Or.inl (snapshot?_root_of_lt f d b hb)
          · exact Or.inl rfl
      | hold ns => exact Or.inl rfl
      | navigate n q =>
          simp only [act, Action.trace]
          split
          · rw [← replay_navigation]
            exact snapshot?_navigation f hf.sound n q b hb fun hn hmoves => htouches ⟨hn, hmoves⟩
          · exact Or.inl rfl
      | mutate n m => exact Or.inl (hmutate n m htouches)
  refine ⟨replay_act f a, hcases, fun n m ha hne => ha ▸ hmutate n m hne, fun n q ha => ⟨?_, ?_⟩⟩
  · -- A view that is up to date cannot be refreshed, as that starts from stale keys.
    intro htouches hfresh
    rcases hcases with heq | htouch | hrefreshed
    · exact heq
    · exact absurd htouch htouches
    · exact absurd hfresh hrefreshed.1
  · intro d hd
    simp only [ha, act]
    split
    · exact (documents_looks f _ (looks_navigation q f n)).2 d hd
    · rfl

/-- Rebuilding the value of the root fetches the view 1, which has not seen the 7, and so brings it
    up to date. -/
theorem refreshed_by_primitive :
    aliased.Reachable ∧ 1 < aliased.views.size ∧
      aliased.Refreshed ((Action.navigate 0 .primitive).trace aliased) 1 ∧
      (aliased.act (.navigate 0 .primitive)).keys 1 = [.index 0] := by
  have hact := snapshot?_act_eq_or_refreshed reachable_aliased (.navigate 0 .primitive) 1
    (by decide)
  rcases hact.2.1 with heq | htouches | hrefreshed
  · exact absurd heq (by decide)
  · exact absurd htouches.2 id
  · exact ⟨reachable_aliased, by decide, hrefreshed, by decide⟩

end Forest

end DocTree
