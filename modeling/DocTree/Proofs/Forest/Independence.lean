import Mathlib
import DocTree.Proofs.Forest.Linked

/-!
# Independent Mutations

Two views are *apart* if neither looks inside of what the other looks at. A mutation
through the one then leaves the other as it was, the slot that it looks at included. So
the second mutation finds what it would have found without the first, and answers and
writes the same.

The two writes go to different places, but these may lie in one document, and even in one
container. It takes the order of writes at incomparable locations for the documents to
come out the same, with all entries in their places. The views come out the same since
a mutation loads only the view that it goes through.

## Main definitions

* `Forest.Apart`: views that look at separate slots.
* `Mutation.performAll`: mutations through one view, one after the other.

## Theorems

* `reload_write_comm`: writes through views that are apart may be made in either order.
* `fst_perform_of_apart`: a mutation answers the same after one through a view that is apart.
* `snd_perform_comm`: the two lead to the same forest in either order.
* `perform_comm`: mutations through views that are apart commute.
* `performAll_comm`: so do sequences of them.
-/

namespace DocTree

namespace Forest

/-- Both views exist, and neither looks inside of what the other looks at: they look at different
    documents, or at incomparable locations of one. -/
def Apart (f : Forest) (n k : ViewId) : Prop :=
  ∃ v w, f.view? n = some v ∧ f.view? k = some w ∧
    (v.document ≠ w.document ∨ Value.Incomparable v.location w.location)

variable {f g : Forest} {n k : ViewId}

theorem Apart.symm (h : f.Apart n k) : f.Apart k n := by
  rcases h with ⟨v, w, hv, hw, hapart⟩
  exact ⟨w, v, hw, hv, hapart.imp Ne.symm Value.Incomparable.symm⟩

/-- A view is not apart from itself. -/
theorem Apart.ne (h : f.Apart n k) : n ≠ k := by
  rintro rfl
  rcases h with ⟨v, w, hv, hw, hapart⟩
  obtain rfl : v = w := Option.some.inj (hv.symm.trans hw)
  rcases hapart with hdocument | hlocation
  · exact hdocument rfl
  · exact hlocation.1 (List.prefix_refl _)

/-- Views that are apart stay so while they are kept. -/
theorem Apart.mono (h : f.Apart n k) (hext : f.Extends g) : g.Apart n k := by
  rcases h with ⟨v, w, hv, hw, hapart⟩
  rcases hext n v hv with ⟨v', hv', hagrees⟩
  rcases hext k w hw with ⟨w', hw', hagrees'⟩
  refine ⟨v', w', hv', hw', ?_⟩
  rwa [hagrees.document, hagrees.location, hagrees'.document, hagrees'.location]

variable {v w : View} {c d c' d' : Entries Value}

/-- What being apart says, of the views themselves. -/
theorem Apart.separate (h : f.Apart n k) (hv : f.view? n = some v) (hw : f.view? k = some w) :
    v.document ≠ w.document ∨ Value.Incomparable v.location w.location := by
  rcases h with ⟨v', w', hv', hw', hapart⟩
  obtain rfl : v = v' := Option.some.inj (hv.symm.trans hv')
  obtain rfl : w = w' := Option.some.inj (hw.symm.trans hw')
  exact hapart

/-- A view that is apart from one that is written through is as before, and so is its slot. -/
theorem Rewritten.of_apart (hg : f.Rewritten g n v c) (hv : f.view? n = some v)
    (hw : f.view? k = some w) (h : f.Apart n k) :
    g.view? k = some w ∧ g.slotAt? w.document w.location = f.slotAt? w.document w.location := by
  refine ⟨by rw [hg.others k h.ne.symm, hw], hg.frame w.document w.location ?_⟩
  exact (h.separate hv hw).imp_left Ne.symm

/-- A view still holds its container after a write through one that is apart. -/
theorem Holds.of_apart (hv : f.Holds n v c) (hw : f.Holds k w d) (h : f.Apart n k) :
    ((f.write n (.container c')).reload n).Holds k w d := by
  rcases (rewritten_write f n v c c' hv).of_apart hv.view hw.view h with ⟨hview, hslot⟩
  exact ⟨hview, hw.kind, hslot.trans hw.slot⟩

/-- Two changes of an array may be made in either order, if they may where they meet. -/
theorem modify_comm {α : Type} (as : Array α) (i j : Nat) (g h : α → α)
    (hmeet : i = j → ∀ a ∈ as[i]?, h (g a) = g (h a)) :
    (as.modify i g).modify j h = (as.modify j h).modify i g := by
  refine Array.ext_getElem? fun k => ?_
  simp only [Array.getElem?_modify]
  -- Entry by entry, only where both changes apply does their order matter.
  by_cases hi : i = k
  · by_cases hj : j = k
    · rw [if_pos hi, if_pos hj, if_pos hj, if_pos hi, Option.map_map, Option.map_map]
      refine Option.map_congr fun a ha => ?_
      exact hmeet (hi.trans hj.symm) a (by rwa [hi])
    · rw [if_neg hj, if_neg hj]
  · rw [if_neg hi, if_neg hi]

/-- Writes through views that are apart may be made in either order. -/
theorem reload_write_comm (hv : f.Holds n v c) (hw : f.Holds k w d) (h : f.Apart n k) :
    (((f.write n (.container c')).reload n).write k (.container d')).reload k
      = (((f.write k (.container d')).reload k).write n (.container c')).reload n := by
  rw [reload_write _ k w d d' (hv.of_apart hw h), reload_write _ n v c c' (hw.of_apart hv h.symm),
    reload_write f n v c c' hv, reload_write f k w d d' hw]
  have hviews := modify_comm f.views n k
    (·.withSnapshot (Snapshot.ofKeys (Entries.keys c')))
    (·.withSnapshot (Snapshot.ofKeys (Entries.keys d'))) fun hnk => absurd hnk h.ne
  have hdocuments := modify_comm f.documents v.document w.document
    (fun x => (x.replace? v.location (.container c')).getD x)
    (fun x => (x.replace? w.location (.container d')).getD x) fun hdocument x hx => ?_
  · rw [hdocuments, hviews]
  · -- The writes meet in one document, where the slots of both exist.
    have hlocations : Value.Incomparable v.location w.location :=
      (h.separate hv.view hw.view).resolve_left fun hne => hne hdocument
    have hslot := hv.slot
    have hslot' := hw.slot
    rw [slotAt?, hx, Option.bind_some] at hslot
    rw [slotAt?, ← hdocument, hx, Option.bind_some] at hslot'
    exact Value.getD_replace?_comm x _ _ _ _ _ _ hlocations hslot hslot'

end Forest

namespace Mutation

open Forest

variable {f : Forest} {n k : ViewId}

/-! ## Two mutations -/

/-- A mutation that has something to do finds a container and is not refused. -/
theorem idle_or_exists_container? (m : Mutation) (f : Forest) (n : ViewId) :
    (f.container? n = none ∨ m.isRefused = true) ∨
      ∃ c, f.container? n = some c ∧ m.isRefused = false := by
  cases hc : f.container? n with
  | none => exact Or.inl (Or.inl rfl)
  | some c => cases hm : m.isRefused <;> simp

/-- A mutation does not change what another one finds through a view that is apart. -/
theorem container?_perform_of_apart (m : Mutation) (h : f.Apart n k) :
    (m.perform f n).2.container? k = f.container? k := by
  rcases m.perform_cases f n with hnone | ⟨v, c, hholds, hwrite⟩
  · rw [hnone]
  · -- The other view and its slot are outside of what was written.
    rcases h.symm with ⟨w, _, hw, _, _⟩
    rcases (rewritten_write f n v c (m.result c) hholds).of_apart hholds.view hw h with
      ⟨hw', hslot⟩
    rw [hwrite, container?, container?, isContainer_of_view? _ k w hw',
      isContainer_of_view? f k w hw, slot?_of_view? _ k w hw', slot?_of_view? f k w hw, hslot]

/-- A mutation answers the same after one through a view that is apart. -/
theorem fst_perform_of_apart (m m' : Mutation) (h : f.Apart n k) :
    (m'.perform (m.perform f n).2 k).1 = (m'.perform f k).1 := by
  have hfound := m.container?_perform_of_apart h
  rcases m'.idle_or_exists_container? f k with hnone | ⟨d, hd, hm'⟩
  · rw [m'.perform_of_none f k hnone, m'.perform_of_none _ k (by rwa [hfound])]
  · rw [m'.perform_of_container? f k d hd hm',
      m'.perform_of_container? _ k d (hfound.trans hd) hm']

/-- Two mutations through views that are apart lead to the same forest in either order. -/
theorem snd_perform_comm (m m' : Mutation) (h : f.Apart n k) :
    (m'.perform (m.perform f n).2 k).2 = (m.perform (m'.perform f k).2 n).2 := by
  have hfound := m.container?_perform_of_apart h
  have hfound' := m'.container?_perform_of_apart h.symm
  rcases m.idle_or_exists_container? f n with hn | ⟨c, hc, hm⟩
  · -- The first mutation does nothing, before the second or after it.
    rw [m.perform_of_none f n hn, m.perform_of_none _ n (by rwa [hfound'])]
  · rcases m'.idle_or_exists_container? f k with hk | ⟨d, hd, hm'⟩
    · rw [m'.perform_of_none f k hk, m'.perform_of_none _ k (by rwa [hfound])]
    · rcases (container?_eq_some_iff f n c).mp hc with ⟨v, hv⟩
      rcases (container?_eq_some_iff f k d).mp hd with ⟨w, hw⟩
      rw [m'.perform_of_container? _ k d (hfound.trans hd) hm',
        m.perform_of_container? _ n c (hfound'.trans hc) hm, m.perform_of_container? f n c hc hm,
        m'.perform_of_container? f k d hd hm']
      exact reload_write_comm hv hw h

/-- Mutations through views that are apart commute. In either order they lead to the same forest,
    with the same documents, entry by entry, and the same snapshot and cursor of every view; and
    each answers what it would without the other. -/
theorem perform_comm (m m' : Mutation) (f : Forest) (n k : ViewId) (h : f.Apart n k) :
    let g := (m.perform f n).2
    let g' := (m'.perform f k).2
    (m'.perform g k).2 = (m.perform g' n).2 ∧
      (m'.perform g k).1 = (m'.perform f k).1 ∧ (m.perform g' n).1 = (m.perform f n).1 :=
  ⟨snd_perform_comm m m' h, fst_perform_of_apart m m' h, fst_perform_of_apart m' m h.symm⟩

/-- A shift in one container and a deep write in its neighbour, both inside of one container. The
    write is through a view that has not seen the entry that its container has got. -/
theorem shift_set_comm :
    let f := ((ofDocuments [.container [(.name "x", .container [
        (.name "a", .container [(.index 0, .int 1), (.name "k", .null)]),
        (.name "b", .container [])])]]).run
      [.root 0, .navigate 0 (.resolve "x/a" "/"), .navigate 0 (.resolve "x/b" "/"),
        .mutate 0 (.set "x/b/c" (.int 2) "/")])
    let m := shift
    let m' := set "c/d" (.int 3) "/"
    f.Apart 2 3 ∧ f.keys 3 = [] ∧
      (m'.perform (m.perform f 2).2 3).2 = (m.perform (m'.perform f 3).2 2).2 ∧
      (m.perform (m'.perform f 3).2 2).1 = some (.taken (.int 1)) := by
  intro f m m'
  have hapart : f.Apart 2 3 :=
    ⟨_, _, rfl, rfl, Or.inr ⟨by decide, by decide⟩⟩
  rcases perform_comm m m' f 2 3 hapart with ⟨hforest, _, hanswer⟩
  exact ⟨hapart, rfl, hforest, hanswer⟩

/-! ## Sequences of mutations -/

/-- Mutations through one view, one after the other. -/
def performAll (ms : List Mutation) (f : Forest) (n : ViewId) : List (Option Reply) × Forest :=
  thread (fun f m => m.perform f n) f ms

/-- A mutation leaves views apart. -/
theorem apart_perform (m : Mutation) (h : f.Apart n k) (j : ViewId) :
    (m.perform f j).2.Apart n k :=
  h.mono (extends_moves f _ (moves_mutation m f j))

/-- A mutation commutes with a sequence of mutations through a view that is apart. -/
theorem perform_performAll_comm (m : Mutation) (ms : List Mutation) (h : f.Apart n k) :
    (performAll ms (m.perform f n).2 k).2 = (m.perform (performAll ms f k).2 n).2 ∧
      (performAll ms (m.perform f n).2 k).1 = (performAll ms f k).1 := by
  -- Induction on the sequence. The two views stay apart, whatever has been done through them.
  induction ms generalizing f with
  | nil => exact ⟨rfl, rfl⟩
  | cons m' ms ih =>
      rcases ih (m'.apart_perform h k) with ⟨hforest, hanswers⟩
      simp only [performAll, thread] at hforest hanswers ⊢
      rw [snd_perform_comm m m' h, fst_perform_of_apart m m' h]
      exact ⟨hforest, congrArg _ hanswers⟩

/-- Sequences of mutations through views that are apart commute. -/
theorem performAll_comm (ms ms' : List Mutation) (h : f.Apart n k) :
    (performAll ms' (performAll ms f n).2 k).2 = (performAll ms (performAll ms' f k).2 n).2 ∧
      (performAll ms' (performAll ms f n).2 k).1 = (performAll ms' f k).1 := by
  induction ms generalizing f with
  | nil => exact ⟨rfl, rfl⟩
  | cons m ms ih =>
      rcases ih (m.apart_perform h n) with ⟨hforest, hanswers⟩
      -- The first mutation of the one sequence passes through the whole of the other.
      rcases perform_performAll_comm m ms' h with ⟨hforest', hanswers'⟩
      simp only [performAll, thread] at hforest hanswers hforest' hanswers' ⊢
      rw [hforest, hforest', hanswers, hanswers']
      exact ⟨rfl, rfl⟩

end Mutation

end DocTree
