import Mathlib
import DocTree.Proofs.FreeIndex
import DocTree.Proofs.Forest.Mutation

/-!
# Appending Under Free Indices

Values are added to a container without looking for an entry that has their key already. All
depends on the choice of the next index: it is free and it is in range, so what is added makes
keys distinct and hides nothing. The one thing that is needed for this is that there is an index
left, which is so while there are fewer than 2^63 entries.

## Theorems

* `append_of_holds`: what an append through a view leaves in the slot.
* `nextIndex_is_free`: which index is next, and that it overwrites nothing.
-/

namespace DocTree

namespace Forest

/-- An append writes the container with the values pushed, in order. -/
theorem append_of_holds (f : Forest) (n : ViewId) (v : View) (c : Entries Value)
    (h : f.Holds n v c) (vs : List Value) :
    (f.append n vs).1 = some () ∧
      (f.append n vs).2.slotAt? v.document v.location
        = some (.container (vs.foldl Entries.push c)) := by
  have hcontainer : f.container? n = some c := (container?_eq_some_iff f n c).mpr ⟨v, h⟩
  rw [append, Mutation.mutate_of_container? f n c hcontainer]
  exact ⟨rfl, (rewritten_write f n v c (vs.foldl Entries.push c) h).slot⟩

end Forest

namespace Entries

/-- The next index is free: 0 if there is no index, one past the largest one if there is one past
    it, and else the smallest from 0 on that is not used. No step of its computation overflows.
    So a value that is pushed gets a key of its own, and so does each of the values of an append:
    they come behind the entries, which keep what they hold. -/
theorem nextIndex_is_free (c : Entries Value) (hc : c.Distinct) (hroom : c.length < 2 ^ 63) :
    (Key.index (nextIndex c) ∉ keys c ∧
      ((∀ i, Key.index i ∉ keys c) → nextIndex c = 0) ∧
      (∀ i, Key.index i ∈ keys c → (∀ j, Key.index j ∈ keys c → j ≤ i) → i < Int64.maxValue →
        (nextIndex c).toInt = i.toInt + 1) ∧
      (Key.index Int64.maxValue ∈ keys c →
        0 ≤ nextIndex c ∧ ∀ j, 0 ≤ j → j < nextIndex c → Key.index j ∈ keys c)) ∧
    nextIndex? c = some (nextIndex c) ∧
    (∀ v, push c v = c ++ [(.index (nextIndex c), v)] ∧ Distinct (push c v) ∧
      ∀ key ∈ keys c, get? (push c v) key = get? c key) ∧
    ∀ (f : Forest) n view vs, f.Holds n view c → c.length + vs.length ≤ 2 ^ 63 →
      (f.append n vs).1 = some () ∧ ∃ added, values added = vs ∧
        (f.append n vs).2.slotAt? view.document view.location
          = some (.container (c ++ added)) ∧
        Distinct (c ++ added) ∧ ∀ key ∈ keys c, get? (c ++ added) key = get? c key := by
  refine ⟨⟨nextIndex_not_mem_keys c hroom, nextIndex_of_no_index c, toInt_nextIndex_of_lt c,
    fun hi => ?_⟩, nextIndex?_eq c hroom, fun v => ⟨rfl, distinct_push c v hc hroom, ?_⟩,
    fun f n view vs h hfits => ?_⟩
  · have hnext := toInt_nextIndex_of_maxValue c hi hroom
    refine ⟨Int64.le_iff_toInt_le.mpr ?_, fun j hj hjnext => ?_⟩
    · rw [hnext]
      exact Int.natCast_nonneg _
    · rw [Int64.lt_iff_toInt_lt, hnext] at hjnext
      -- Everything below the first free index is taken, so it is the smallest from 0 on.
      have hlow : 0 ≤ j.toInt := Int64.le_iff_toInt_le.mp hj
      have htaken := mem_indices_of_lt_firstFreeIndex c j.toInt.toNat (by omega)
      rwa [Int.toNat_of_nonneg hlow, mem_indices_iff] at htaken
  · exact fun key => get?_append_of_mem c _ key
  · -- The values are pushed one by one, and what comes of it is the entries with others behind
    -- them.
    rcases foldl_push c vs with ⟨added, hfold, hvalues⟩
    have hdistinct := distinct_foldl_push c vs hc hfits
    have happend := Forest.append_of_holds f n view c h vs
    rw [hfold] at hdistinct happend
    exact ⟨happend.1, added, hvalues, happend.2, hdistinct,
      fun key => get?_append_of_mem c added key⟩

/-- Past the largest index, the gap between 0 and 2 is filled first. -/
theorem nextIndex_is_free_of_gap :
    let c : Entries Value := [(.index 2, .null), (.index Int64.maxValue, .int 5),
      (.name "1", .bool true), (.index 0, .null), (.index (-3), .null)]
    let f := ((Forest.ofDocuments [.container c]).root 0).2
    let view : View := ⟨0, [], none, none, .container (Snapshot.ofKeys (keys c)) []⟩
    c.Distinct ∧ c.length < 2 ^ 63 ∧ f.Holds 0 view c ∧
      Key.index (nextIndex c) ∉ keys c ∧ nextIndex? c = some 1 ∧
      ∃ added, values added = [.int 6, .int 7] ∧
        (f.append 0 [.int 6, .int 7]).2.slotAt? 0 [] = some (.container (c ++ added)) ∧
        Distinct (c ++ added) := by
  intro c f view
  have hdistinct : c.Distinct := (by decide : (keys c).Nodup)
  have hroom : c.length < 2 ^ 63 := by decide
  have hholds : f.Holds 0 view c := ⟨rfl, rfl, rfl⟩
  have hnext : nextIndex c = 1 := by decide
  rcases nextIndex_is_free c hdistinct hroom with ⟨⟨hfree, _⟩, hchecked, _, happend⟩
  rcases (happend f 0 view [.int 6, .int 7] hholds (by decide)).2 with
    ⟨added, hvalues, hslot, hkeys, _⟩
  exact ⟨hdistinct, hroom, hholds, hfree, hnext ▸ hchecked, added, hvalues, hslot, hkeys⟩

end Entries

end DocTree
