import Mathlib
import DocTree.Proofs.Forest.Undisturbed

/-!
# Walking Along a Cursor

A cursor is taken from the unset position along all keys of a snapshot and back to the first.
At its two ends it behaves differently: it starts before the first key, sticks at the last,
and on the way back sticks at the first. Where it is after some calls depends on how many there
were, and on nothing else, as long as the view is left alone in between.

The positions are easier to follow as numbers of keys. Number 0 is the unset position, and a
call moves on by one number up to the last key, or back by one down to the first. A step lemma
says so for one call in each direction, and each walk is an induction on its calls.

The keys are those that the snapshot had when the walk began. The container may change
meanwhile, and a key may be gone when the cursor comes to it; then the call moves the cursor and
finds nothing.

## Main definitions

* `Snapshot.cursorOn`: the cursor on the key with some number.
* `Forest.Visits`: a call that comes to a key.
* `Forest.Calls`: calls with other actions in between.
* `Forest.StandsOn`: a view whose cursor is on the key with some number.

## Theorems

* `following?_of_cursorOn`, `preceding?_of_cursorOn`: where a call leads.
* `visits_moveTo`: a call that moves the cursor fetches the child there.
* `standsOn_next`, `standsOn_prev`: one call.
* `standsOn_nexts`, `standsOn_prevs`: calls, one after the other.
* `walk_visits_every_key`: the walk forth and back.
-/

namespace DocTree

namespace Snapshot

/-- The cursor on the key with this number, counting from 1; before the first it is unset. -/
def cursorOn : Nat → Option Nat
  | 0 => none
  | i + 1 => some i

/-- Forward the cursor comes to the next key, if there is one. -/
theorem following?_of_cursorOn (s : Snapshot) (hs : s.Aligned) (c : Nat)
    (hc : s.cursor = cursorOn c) :
    s.following? = if c < s.keys.length then some c else none := by
  rw [following?, hs, hc]
  -- Without keys there is no last one, and the cursor stays unset.
  cases hkeys : s.keys with
  | nil => rfl
  | cons key keys =>
      rw [List.isEmpty_cons, if_neg Bool.false_ne_true, Option.bind_some]
      -- The unset position comes before the first key, and there is one.
      cases c with
      | zero => rw [if_pos (by simp), cursorOn]
      | succ i =>
          simp only [cursorOn, List.length_cons, Nat.add_sub_cancel, Nat.add_lt_add_iff_right]
          by_cases hi : i < keys.length
          · rw [if_neg (by omega), if_pos hi]
          · rw [if_pos (by omega), if_neg hi]

/-- Backward it comes to the key before, if it is not on the first. -/
theorem preceding?_of_cursorOn (s : Snapshot) (c : Nat) (hc : s.cursor = cursorOn c) :
    s.preceding? = if 2 ≤ c then some (c - 2) else none := by
  rw [preceding?, hc]
  match c with
  | 0 => rfl
  | 1 => rfl
  | i + 2 => rw [if_pos (by omega)]; rfl

end Snapshot

namespace Forest

variable {f g : Forest} {n : ViewId}

/-! ## Moving the cursor -/

/-- Moving a cursor changes no lineage. -/
theorem lineage_withSnapshot (f : Forest) (n m : ViewId) (s : Snapshot) :
    (f.update n (·.withSnapshot s)).lineage m = f.lineage m := by
  -- A lineage is made of parents, and no parent changes.
  have hparent : ∀ m, (f.update n (·.withSnapshot s)).parent m = f.parent m := by
    intro m
    rw [parent, view?_update]
    split
    · rw [parent]
      cases f.view? m with
      | none => rfl
      | some v => exact (v.agrees_withSnapshot s).parent
    · rw [parent]
  have hwithin : ∀ fuel m, (f.update n (·.withSnapshot s)).lineageWithin fuel m
      = f.lineageWithin fuel m := by
    intro fuel
    induction fuel with
    | zero => exact fun _ => rfl
    | succ fuel ih =>
        intro m
        simp only [lineageWithin, hparent, ih]
  exact hwithin (m + 1) m

/-- Nor does it change the kind of any view. -/
theorem isContainer_withSnapshot (f : Forest) (n m : ViewId) (s : Snapshot) :
    (f.update n (·.withSnapshot s)).isContainer m = f.isContainer m := by
  rw [isContainer, view?_update]
  split
  · rw [isContainer, Option.map_map]
    exact congrArg (Option.getD · false)
      (Option.map_congr fun v _ => (v.agrees_withSnapshot s).kind)
  · rw [isContainer]

/-- No view reads anything else when a cursor is put somewhere. -/
theorem value_setCursor (f : Forest) (n m : ViewId) (cursor : Option Nat) :
    (f.setCursor n cursor).value m = f.value m := by
  unfold setCursor
  cases f.snapshot? n with
  | none => rfl
  | some s =>
      cases hv : f.view? m with
      | none => simp [value, slot?, view?_update, hv]
      | some v =>
          have hagrees := v.agrees_withSnapshot { s with cursor := cursor }
          rw [value, value, slot?, slot?, view?_update, hv]
          split
          · simp [hagrees.document, hagrees.location]
          · simp

/-- What a view remembers and can still use does not depend on any snapshot. -/
theorem cached?_withSnapshot (f : Forest) (n : ViewId) (s : Snapshot)
    (children : List (Key × ViewId)) (key : Key) (container : Bool) :
    (f.update n (·.withSnapshot s)).cached? children key container
      = f.cached? children key container := by
  have halive : ∀ c, (f.update n (·.withSnapshot s)).isAlive c = f.isAlive c := by
    intro c
    simp only [isAlive, lineage_withSnapshot]
    rfl
  simp only [cached?, halive, isContainer_withSnapshot]

/-- A key of the snapshot leads to no child exactly if the slot has it no longer. -/
theorem fst_child_eq_none_iff (f : Forest) (n : ViewId) (key : Key) (hkey : key ∈ f.keys n) :
    (f.child n key).1 = none ↔ key ∉ f.liveKeys n := by
  -- A key is live exactly if its slot exists.
  have hlive : key ∈ f.liveKeys n ↔ (f.slotBelow? n key).isSome := by
    rw [slotBelow?_eq_child?, liveKeys]
    cases f.value n with
    | container c => exact (Entries.isSome_get?_iff c key).symm
    | _ => simp [Value.keys, Value.entries?, Value.child?]
  rw [hlive]
  cases hslot : f.slotBelow? n key with
  | none => rw [child_of_slotBelow?_eq_none f n key fun _ => hslot]; simp
  | some u =>
      rcases exists_view?_of_mem_keys f n key hkey with ⟨v, hv⟩
      rw [slotBelow?_of_view? f n v key hv] at hslot
      -- With a slot some child is found, an old one or a new one.
      rw [child_of_slot f n v key u hv hkey hslot]
      cases f.cached? v.children key u.isContainer <;> simp

/-- A fetch finds the same child wherever the cursor is. -/
theorem fst_child_setCursor (f : Forest) (n : ViewId) (key : Key) (cursor : Option Nat) :
    ((f.setCursor n cursor).child n key).1 = (f.child n key).1 := by
  cases hs : f.snapshot? n with
  | none => simp only [setCursor, hs]
  | some s =>
      rcases Option.bind_eq_some_iff.mp hs with ⟨v, hv, _⟩
      have hkeys := keys_setCursor f n cursor
      simp only [setCursor, hs] at hkeys ⊢
      -- The view looks at the same slot as before, and remembers the same children.
      have hv' : (f.update n (·.withSnapshot { s with cursor := cursor })).view? n
          = some (v.withSnapshot { s with cursor := cursor }) := by
        rw [view?_update, if_pos rfl, hv, Option.map_some]
      have hagrees := v.agrees_withSnapshot { s with cursor := cursor }
      by_cases hfound : key ∈ f.keys n ∧
          ∃ u, f.slotAt? v.document (v.location ++ [key]) = some u
      · rcases hfound with ⟨hkey, u, hu⟩
        rw [child_of_slot f n v key u hv hkey hu,
          child_of_slot _ n _ key u hv' (by rwa [hkeys]) (by
            rw [hagrees.document, hagrees.location, slotAt?_update, hu]),
          View.children_withSnapshot, cached?_withSnapshot]
        cases f.cached? v.children key u.isContainer with
        | some c => rfl
        | none => simp [update]
      · -- Without a slot, or without the key, nothing is found on either side.
        have hnone : key ∈ f.keys n → f.slotAt? v.document (v.location ++ [key]) = none := by
          intro hkey
          rw [Option.eq_none_iff_forall_ne_some]
          exact fun u hu => hfound ⟨hkey, u, hu⟩
        rw [child_of_none f n key fun w hw hkey => ?_, child_of_none _ n key fun w hw hkey => ?_]
        · rw [hv', Option.some.injEq] at hw
          rw [← hw, hagrees.document, hagrees.location, slotAt?_update]
          exact hnone (by rwa [hkeys] at hkey)
        · rw [hv, Option.some.injEq] at hw
          rw [← hw]
          exact hnone hkey

/-- The call finds the child under this key, or nothing if the key is no longer live, and leaves
    the cursor at this position. -/
structure Visits (f : Forest) (n : ViewId) (i : Nat) (key : Key)
    (r : Option ViewId × Forest) : Prop where
  moved : r = (f.setCursor n (some i)).child n key
  found : r.1 = (f.child n key).1
  gone : r.1 = none ↔ key ∉ f.liveKeys n
  cursor : r.2.cursor n = some i

/-- The snapshot of the view has these keys, and its cursor is on the key with this number. -/
def StandsOn (f : Forest) (n : ViewId) (ks : List Key) (c : Nat) : Prop :=
  ∃ s, f.snapshot? n = some s ∧ s.keys = ks ∧ s.cursor = Snapshot.cursorOn c

variable {ks : List Key} {c : Nat}

theorem StandsOn.keys (h : f.StandsOn n ks c) : f.keys n = ks := by
  rcases h with ⟨s, hs, hkeys, _⟩
  rw [Forest.keys, hs, Option.map_some, Option.getD_some, hkeys]

theorem StandsOn.cursor (h : f.StandsOn n ks c) : f.cursor n = Snapshot.cursorOn c := by
  rcases h with ⟨s, hs, _, hcursor⟩
  rw [Forest.cursor, hs, Option.bind_some, hcursor]

theorem StandsOn.lt (h : f.StandsOn n ks c) : n < f.views.size := by
  rcases h with ⟨s, hs, _⟩
  rcases Option.bind_eq_some_iff.mp hs with ⟨v, hv, _⟩
  exact lt_of_view? f n v hv

theorem StandsOn.of_snapshot? (h : f.StandsOn n ks c) (hg : g.snapshot? n = f.snapshot? n) :
    g.StandsOn n ks c := by
  rcases h with ⟨s, hs, hrest⟩
  exact ⟨s, hg.trans hs, hrest⟩

/-- After rewinding the cursor is before the first key. -/
theorem standsOn_rewind (h : f.isContainer n = true) :
    (f.rewind n).StandsOn n (f.keys n) 0 := by
  rcases exists_snapshot?_of_isContainer f n h with ⟨s, hs⟩
  refine ⟨_, snapshot?_setCursor_self f n s hs none, ?_, rfl⟩
  rw [Forest.keys, hs]
  rfl

/-- A call that moves the cursor to a key fetches the child there. Fetching a child does not load
    its parent, so the cursor stays where it was put. -/
theorem visits_moveTo (hf : f.Orderly) (h : f.StandsOn n ks c) (i : Nat) (key : Key)
    (hkey : ks[i]? = some key) :
    f.Visits n i key (f.moveTo n (some i)) ∧ (f.moveTo n (some i)).2.StandsOn n ks (i + 1) := by
  have hkeys := keys_setCursor f n (some i)
  rw [h.keys] at hkeys
  have hmoved : f.moveTo n (some i) = (f.setCursor n (some i)).child n key := by
    rw [moveTo, childAt, hkeys, hkey]
  have hmem : key ∈ f.keys n := by
    rw [h.keys]
    exact List.mem_of_getElem? hkey
  have hlt := h.lt
  rcases h with ⟨s, hs, hskeys, _⟩
  have hself := snapshot?_setCursor_self f n s hs (some i)
  have hset : f.setCursor n (some i) = f.update n (·.withSnapshot { s with cursor := some i }) := by
    rw [setCursor, hs]
  -- The fetch may load a view, but it is not this one.
  have hstands : ((f.setCursor n (some i)).child n key).2.StandsOn n ks (i + 1) := by
    refine StandsOn.of_snapshot? ⟨_, hself, hskeys, rfl⟩ ?_
    refine (snapshot?_child _ ?_ n key n ?_).resolve_right fun hload => ?_
    · rw [hset]
      exact linked_withSnapshot f hf.sound.linked n _
    · rw [hset]
      simpa [update] using hlt
    · -- No view is its own parent.
      have hrooted : (f.setCursor n (some i)).Rooted := by
        rw [hset]
        exact rooted_withSnapshot f hf.rooted n _
      exact absurd (hrooted.parent_lt n n hload.parent) (Nat.lt_irrefl n)
  -- What is found does not depend on where the cursor is.
  have hfound : (f.moveTo n (some i)).1 = (f.child n key).1 := by
    rw [hmoved, fst_child_setCursor]
  rw [hmoved] at hfound ⊢
  refine ⟨⟨rfl, hfound, ?_, hstands.cursor⟩, hstands⟩
  rw [hfound]
  exact fst_child_eq_none_iff f n key hmem

/-- Forward, a call comes to the next key, and on the last key it finds nothing and stays. -/
theorem standsOn_next (hf : f.Orderly) (h : f.StandsOn n ks c) :
    (∀ key, ks[c]? = some key → f.Visits n c key (f.next n)) ∧
      (ks.length ≤ c → f.next n = (none, f)) ∧
      (c ≤ ks.length → (f.next n).2.StandsOn n ks (min (c + 1) ks.length)) := by
  -- The position that a call moves to, in numbers of keys.
  have hposition : (f.snapshot? n).bind Snapshot.following?
      = if c < ks.length then some c else none := by
    rcases h with ⟨s, hs, rfl, hcursor⟩
    rw [hs, Option.bind_some,
      s.following?_of_cursorOn (hf.sound.aligned n s hs) c hcursor]
  rw [next, hposition]
  by_cases hc : c < ks.length
  · rw [if_pos hc]
    have hvisits := visits_moveTo hf h c ks[c] (List.getElem?_eq_getElem hc)
    refine ⟨fun key hkey => ?_, fun hle => absurd hc (Nat.not_lt.mpr hle), fun _ => ?_⟩
    · exact (visits_moveTo hf h c key hkey).1
    · rw [Nat.min_eq_left hc]
      exact hvisits.2
  · -- All keys have been visited, and nothing is moved.
    rw [if_neg hc, moveTo]
    refine ⟨fun key hkey => ?_, fun _ => rfl, fun hle => ?_⟩
    · exact absurd (List.getElem?_eq_some_iff.mp hkey).choose hc
    · rw [Nat.min_eq_right (by omega)]
      rwa [Nat.le_antisymm hle (Nat.not_lt.mp hc)] at h

/-- Backward, a call comes to the key before, and on the first key it finds nothing and stays. -/
theorem standsOn_prev (hf : f.Orderly) (h : f.StandsOn n ks c) (hc : c ≤ ks.length) :
    (∀ i key, i + 2 = c → ks[i]? = some key → f.Visits n i key (f.prev n)) ∧
      (c ≤ 1 → f.prev n = (none, f)) ∧
      (f.prev n).2.StandsOn n ks (max (c - 1) (min 1 c)) := by
  have hposition : (f.snapshot? n).bind Snapshot.preceding?
      = if 2 ≤ c then some (c - 2) else none := by
    rcases h with ⟨s, hs, _, hcursor⟩
    rw [hs, Option.bind_some, s.preceding?_of_cursorOn c hcursor]
  rw [prev, hposition]
  by_cases htwo : 2 ≤ c
  · -- The keys are numbered from 1 and the positions from 0, so the key before is two less.
    rw [if_pos htwo]
    have hlt : c - 2 < ks.length := by omega
    have hvisits := visits_moveTo hf h (c - 2) ks[c - 2] (List.getElem?_eq_getElem hlt)
    refine ⟨fun i key hi hkey => ?_, fun hle => by omega, ?_⟩
    · obtain rfl : c - 2 = i := by omega
      exact (visits_moveTo hf h (c - 2) key hkey).1
    · rw [show max (c - 1) (min 1 c) = c - 2 + 1 by omega]
      exact hvisits.2
  · rw [if_neg htwo, moveTo]
    refine ⟨fun i key hi => by omega, fun _ => rfl, ?_⟩
    rwa [show max (c - 1) (min 1 c) = c by omega]

/-! ## Calls -/

/-- From `f` to `g` a view is called this many times in one way, with other actions in between
    that leave it alone. -/
inductive Calls (n : ViewId) (way : Navigation) : Nat → Forest → Forest → Prop
  | start (f : Forest) : Calls n way 0 f f
  | call (k : Nat) (f g : Forest) : Calls n way k f g → Calls n way (k + 1) f (way.perform g n)
  | pause (k : Nat) (f g : Forest) (a : Action) : Calls n way k f g → g.LeavesAlone n a →
      Calls n way k f (g.act a)

/-- Calls, and what is done in between, are moves. -/
theorem Calls.moves {way : Navigation} {k : Nat} (h : Calls n way k f g) : Moves f g := by
  induction h with
  | start f => exact .refl
  | call k f g _ ih => exact ih.trans (moves_of_looks _ _ (looks_navigation way g n))
  | pause k f g a _ _ ih => exact ih.trans (moves_act g a)

/-- After some calls forward the cursor is on the key with their number, or on the last. -/
theorem standsOn_nexts {k : Nat} (h : Calls n .next k f g) (hf : f.Orderly)
    (hstart : f.StandsOn n ks 0) : g.StandsOn n ks (min k ks.length) := by
  -- On the calls and pauses. A call moves on by one key, a pause leaves the cursor alone.
  induction h with
  | start f => rwa [Nat.zero_min]
  | call k f g hcalls ih =>
      have hnext := (standsOn_next (hf.moves hcalls.moves) (ih hf hstart)).2.2
      rw [show min (k + 1) ks.length = min (min k ks.length + 1) ks.length by omega]
      exact hnext (Nat.min_le_right k ks.length)
  | pause k f g a hcalls halone ih =>
      have hstands := ih hf hstart
      exact hstands.of_snapshot?
        (snapshot?_act_of_leavesAlone (hf.moves hcalls.moves).sound hstands.lt a halone)

/-- After some calls backward from the last key the cursor is as many keys before it, or on the
    first. -/
theorem standsOn_prevs {j : Nat} (h : Calls n .prev j f g) (hf : f.Orderly)
    (hstart : f.StandsOn n ks ks.length) :
    g.StandsOn n ks (max (ks.length - j) (min 1 ks.length)) := by
  -- The same, backward from the last key.
  induction h with
  | start f => rwa [Nat.sub_zero, Nat.max_eq_left (Nat.min_le_right 1 ks.length)]
  | call j f g hcalls ih =>
      have hprev := (standsOn_prev (hf.moves hcalls.moves) (ih hf hstart) (by omega)).2.2
      rw [show max (ks.length - (j + 1)) (min 1 ks.length)
        = max (max (ks.length - j) (min 1 ks.length) - 1)
          (min 1 (max (ks.length - j) (min 1 ks.length))) by omega]
      exact hprev
  | pause j f g a hcalls halone ih =>
      have hstands := ih hf hstart
      exact hstands.of_snapshot?
        (snapshot?_act_of_leavesAlone (hf.moves hcalls.moves).sound hstands.lt a halone)

/-- In a reachable forest, let `ks` be the keys that a container view has in its snapshot. From the
    unset position, each call forward comes to the next of these keys: it finds what a fetch of
    that key finds, which is nothing only if the key is no longer live, and leaves the cursor on
    it. After the last key a call forward finds nothing and changes nothing. From there each call
    backward comes to the key before, in the same way, and on the first key it finds nothing and
    changes nothing. Other actions in between do not matter as long as they leave the view alone.
    Whatever is only asked of the view does, and so does a mutation through another one. -/
theorem walk_visits_every_key {f : Forest} (hf : f.Reachable) (n : ViewId)
    (hn : f.isContainer n = true) :
    let ks := f.keys n
    (∀ k g, Calls n .next k (f.rewind n) g →
      g.keys n = ks ∧ g.cursor n = Snapshot.cursorOn (min k ks.length) ∧
      (∀ key, ks[k]? = some key → g.Visits n k key (g.next n)) ∧
      (ks.length ≤ k → g.next n = (none, g) ∧
        ∀ j h, Calls n .prev j g h →
          h.keys n = ks ∧
          h.cursor n = Snapshot.cursorOn (max (ks.length - j) (min 1 ks.length)) ∧
          (∀ i key, i + j + 2 = ks.length → ks[i]? = some key → h.Visits n i key (h.prev n)) ∧
          (ks.length ≤ j + 1 → h.prev n = (none, h)))) ∧
    ∀ g, Moves f g →
      (∀ a, ¬ a.MovesOrLoads → g.LeavesAlone n (.navigate n a)) ∧
        ∀ m mutation, m ≠ n → g.LeavesAlone n (.mutate m mutation) := by
  intro ks
  have hrewound : (f.rewind n).Orderly := hf.orderly.glances (glances_rewind f n)
  have hstart : (f.rewind n).StandsOn n ks 0 := standsOn_rewind hn
  clear_value ks
  refine ⟨fun k g hnexts => ?_, fun g hmoves => ⟨fun a ha => ?_, fun m mutation hm => ?_⟩⟩
  · have hg := hrewound.moves hnexts.moves
    have hstands := standsOn_nexts hnexts hrewound hstart
    rcases standsOn_next hg hstands with ⟨hvisits, hend, _⟩
    refine ⟨hstands.keys, hstands.cursor, fun key hkey => ?_, fun hall => ?_⟩
    · have hlt : k < ks.length := (List.getElem?_eq_some_iff.mp hkey).choose
      rw [Nat.min_eq_left hlt.le] at hvisits
      exact hvisits key hkey
    · -- All keys have been visited, so the cursor is on the last one, and the way back starts
      -- there.
      rw [Nat.min_eq_right hall] at hend hstands
      refine ⟨hend (Nat.le_refl _), fun j h hprevs => ?_⟩
      have hback := standsOn_prevs hprevs hg hstands
      rcases standsOn_prev (hg.moves hprevs.moves) hback (by omega) with ⟨hvisits', hend', _⟩
      refine ⟨hback.keys, hback.cursor, fun i key hi hkey => ?_, fun hlast => ?_⟩
      · exact hvisits' i key (by omega) hkey
      · exact hend' (by omega)
  · -- A view that is there stays there, so it can be left alone.
    rcases exists_view?_of_isContainer f n hn with ⟨v, hv⟩
    rcases extends_moves f g hmoves n v hv with ⟨w, hw, _⟩
    exact leavesAlone_navigate (hf.orderly.moves hmoves) (lt_of_view? g n w hw) a ha
  · exact leavesAlone_mutate g m mutation hm

/-- The last key is taken out through another view, after the first call. The cursor comes to it all
    the same, finds nothing there, and goes back to the first. -/
theorem walk_visits_removed_key :
    let f := (ofDocuments [.container [(.name "a", .container
        [(.name "x", .int 1), (.name "y", .int 2)])]]).run
      [.root 0, .navigate 0 (.child (.name "a")), .root 0, .navigate 2 (.child (.name "a"))]
    let g := ((f.rewind 1).next 1).2.act (.mutate 3 .pop)
    let h := (g.next 1).2
    f.Reachable ∧ f.isContainer 1 = true ∧
      Calls 1 .next 1 (f.rewind 1) g ∧ g.Visits 1 1 (.name "y") (g.next 1) ∧
      (g.next 1).1 = none ∧
      Calls 1 .next 2 (f.rewind 1) h ∧ h.next 1 = (none, h) ∧
      h.Visits 1 0 (.name "x") (h.prev 1) ∧ (h.prev 1).1.isSome := by
  intro f g h
  have hf : f.Reachable := ⟨_, _, rfl⟩
  have hcontainer : f.isContainer 1 = true := rfl
  have hone : Calls 1 .next 1 (f.rewind 1) g :=
    .pause _ _ _ _ (.call _ _ _ (.start _)) (leavesAlone_mutate _ 3 .pop (by decide))
  have htwo : Calls 1 .next 2 (f.rewind 1) h := .call _ _ _ hone
  have hwalk := (walk_visits_every_key hf 1 hcontainer).1
  have hvisits := (hwalk 1 g hone).2.2.1 (.name "y") rfl
  rcases (hwalk 2 h htwo).2.2.2 (by decide) with ⟨hend, hback⟩
  have hfirst := (hback 0 h (.start h)).2.2.1 0 (.name "x") rfl rfl
  refine ⟨hf, hcontainer, hone, hvisits, ?_, htwo, hend, hfirst, ?_⟩
  · exact hvisits.gone.mpr (by decide +kernel)
  · rw [Option.isSome_iff_ne_none, ne_eq, hfirst.gone, not_not]
    decide +kernel

end Forest

end DocTree
