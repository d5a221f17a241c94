import Mathlib
import DocTree.Proofs.Merge.Weave

/-!
# The Merge Rule

What a merge of two containers holds, entry by entry and without mention of how it comes
about. `MergesTo` states the rule: which entries there are and in what order, how the
indices run, and what is under a name that one side has or both.

A merge looks up names in what it has merged so far and takes every index from the
largest one there, so none of this can be read off a single step. On slots it can: a
merge numbers a weave of both sides, and each part of the rule is a property of weaving
or of numbering.

The rule leaves nothing open. Order, indices and names together fix entries with distinct
names, so the merge is the only list of entries that follows it.

## Main definitions

* `Slots.loose`, `Entries.indexed`: the values without a name, which are those under indices.
* `Value.MergesTo`: the rule.

## Theorems

* `Entries.ext_of_indexed`: entries with distinct names are fixed by their order, their
  indexed entries and what is under their names.
* `filter_isIndex_number`: the indexed entries of numbered slots are a sequence.
* `loose_weave`: a weave has the values without a name of the left side, then of the right.
* `MergesTo.unique`: there is only one way to follow the rule.
* `mergesTo_number`: a numbered weave follows it.
* `mergeEntries_rule`: a merge is what the rule says, and what it comes to with an empty side.
-/

namespace DocTree

variable {α : Type}

/-! ## Values without a name -/

namespace Slots

/-- The values in slots without a name, in order. -/
def loose (s : Slots α) : List α :=
  (s.filter fun e => e.1.isNone).map Prod.snd

theorem loose_append (s u : Slots α) : loose (s ++ u) = loose s ++ loose u := by
  rw [loose, List.filter_append, List.map_append, loose, loose]

theorem filter_isIndex_number (n : Nat) (s : Slots α) :
    (number n s).filter (fun e => e.1.isIndex) = Entries.numberedFrom n (loose s) := by
  -- Induction on the slots, with the number of the first.
  induction s generalizing n with
  | nil => rfl
  | cons e s ih =>
      rcases e with ⟨name, v⟩
      cases name with
      | none => exact congrArg ((.index (Int64.ofNat n), v) :: ·) (ih (n + 1))
      | some t => exact ih n

/-- Weaving combines no values without a name, and drops none of them. -/
theorem loose_weave (f : α → α → α) (s u : Slots α) :
    loose (weave f s u) = loose s ++ loose u := by
  have hleft : loose (s.map (meet f u)) = loose s := by
    induction s with
    | nil => rfl
    | cons e s ih =>
        rcases e with ⟨name, v⟩
        cases name with
        | none => exact congrArg (v :: ·) ih
        | some t =>
            have hnamed : (meet f u (some t, v)).1.isNone = false := by rw [fst_meet]; rfl
            rw [List.map_cons, loose, List.filter_cons_of_neg (by simp [hnamed])]
            exact ih
  have hright : loose (u.filter (isNew s)) = loose u := by
    rw [loose, List.filter_filter, loose]
    refine congrArg _ (List.filter_congr fun e _ => ?_)
    -- What has no name has no partner.
    cases he : e.1 with
    | none => simp [isNew, he]
    | some t => rfl
  rw [weave, loose_append, hleft, hright]

/-- Which slots of a weave have a name, and which: the left side first, and then what is new. -/
theorem map_fst_weave (f : α → α → α) (s u : Slots α) :
    (weave f s u).map Prod.fst
      = s.map Prod.fst ++ (u.map Prod.fst).filter fun name => (name.bind (find? s)).isNone := by
  have hleft : (s.map (meet f u)).map Prod.fst = s.map Prod.fst := by
    rw [List.map_map]
    exact List.map_congr_left fun e _ => fst_meet f u e
  have hright : (u.filter (isNew s)).map Prod.fst
      = (u.map Prod.fst).filter fun name => (name.bind (find? s)).isNone := by
    rw [List.filter_map]
    rfl
  rw [weave, List.map_append, hleft, hright]

end Slots

namespace Entries

open Slots

/-- The values under indices, in entry order. -/
def indexed (c : Entries α) : List α :=
  values (c.filter fun e => e.1.isIndex)

theorem indexed_eq_loose (c : Entries α) : indexed c = loose c.slots := by
  induction c with
  | nil => rfl
  | cons e c ih =>
      rcases e with ⟨key, v⟩
      cases key with
      | index i => exact congrArg (v :: ·) ih
      | name t => exact ih

theorem map_name?_eq (c : Entries α) : (c.map fun e => e.1.name?) = (slots c).map Prod.fst := by
  rw [slots, List.map_map]
  rfl

theorem get?_name_eq_none_iff (c : Entries α) (t : String) :
    c.get? (.name t) = none ↔ t ∉ names c.slots := by
  rw [← find?_slots, find?_eq_none_iff]

/-- Two lists of entries are the same if they have the same names in the same places, the same
    entries under indices, and the same values under their names. -/
theorem ext_of_indexed (c d : Entries α) (hdistinct : (names (slots c)).Nodup)
    (horder : (c.map fun e => e.1.name?) = d.map fun e => e.1.name?)
    (hindexed : c.filter (fun e => e.1.isIndex) = d.filter fun e => e.1.isIndex)
    (hnamed : ∀ t, c.get? (.name t) = d.get? (.name t)) : c = d := by
  -- Induction on the entries. Their order tells for each pair whether it is one of indices or of
  -- names.
  induction c generalizing d with
  | nil => exact (List.map_eq_nil_iff.mp horder.symm).symm
  | cons e c ih =>
      rcases d with _ | ⟨⟨other, w⟩, d⟩
      · exact absurd horder (by simp)
      rcases e with ⟨key, v⟩
      rw [List.map_cons, List.map_cons, List.cons.injEq] at horder
      rcases horder with ⟨hname, horder⟩
      cases key with
      | index i =>
          cases other with
          | name r => exact absurd hname (by simp [Key.name?])
          | index j =>
              -- Both entries are the first ones under an index.
              rw [List.filter_cons_of_pos rfl, List.filter_cons_of_pos rfl,
                List.cons.injEq] at hindexed
              have hrest : c = d := ih d hdistinct horder hindexed.2 hnamed
              rw [hindexed.1, hrest]
      | name t =>
          cases other with
          | index j => exact absurd hname (by simp [Key.name?])
          | name r =>
              rw [← Option.some.inj hname] at hnamed hindexed ⊢
              have hv : v = w := by simpa [get?] using hnamed t
              have hnodup : t ∉ names (slots c) ∧ (names (slots c)).Nodup :=
                List.nodup_cons.mp hdistinct
              have hnames : names (slots c) = names (slots d) := by
                have hmap := congrArg (List.filterMap id) horder
                rwa [map_name?_eq, map_name?_eq, List.filterMap_map, List.filterMap_map] at hmap
              have hrest : c = d := ih d hnodup.2 horder hindexed fun q => by
                by_cases hq : t = q
                · -- Behind the two entries their name does not come again.
                  rw [← hq, (get?_name_eq_none_iff c t).mpr hnodup.1,
                    (get?_name_eq_none_iff d t).mpr (hnames ▸ hnodup.1)]
                · have hne : Key.name t ≠ Key.name q := fun h => hq (Key.name.inj h)
                  simpa only [get?, if_neg hne] using hnamed q
              rw [hv, hrest]

end Entries

/-! ## The rule -/

namespace Value

open Slots

/-- What a merge of `left` and `right` has to be. -/
structure MergesTo (left right merged : Entries Value) : Prop where
  /-- The entries of the left side in order, and then those of the right side, less the names
      that the left side has. -/
  order : (merged.map fun e => e.1.name?)
    = (left.map fun e => e.1.name?)
      ++ (right.map fun e => e.1.name?).filter fun name =>
        !name.any fun t => Entries.has left (.name t)
  /-- The indices are 0, 1, 2, … in entry order, and hold the values under the indices of the left
      side and then those of the right side. -/
  numbered : merged.filter (fun e => e.1.isIndex)
    = Entries.ofValues (Entries.indexed left ++ Entries.indexed right)
  /-- A name that only the left side has keeps its value. -/
  left_only : ∀ t, Entries.has right (.name t) = false →
    Entries.get? merged (.name t) = Entries.get? left (.name t)
  /-- A name that only the right side has keeps its value. -/
  right_only : ∀ t, Entries.has left (.name t) = false →
    Entries.get? merged (.name t) = Entries.get? right (.name t)
  /-- A name that both sides have holds the merge of its two values. -/
  both : ∀ t v w, Entries.get? left (.name t) = some v → Entries.get? right (.name t) = some w →
    Entries.get? merged (.name t) = some (merge v w)

/-- There is only one way to follow the rule. -/
theorem MergesTo.unique {left right merged other : Entries Value} (hm : MergesTo left right merged)
    (ho : MergesTo left right other) (hdistinct : (names merged.slots).Nodup) : merged = other := by
  refine Entries.ext_of_indexed merged other hdistinct (hm.order.trans ho.order.symm)
    (hm.numbered.trans ho.numbered.symm) fun t => ?_
  -- The rule says what is under a name by which sides have it.
  cases hleft : Entries.get? left (.name t) with
  | none =>
      have hhas : Entries.has left (.name t) = false := by rw [Entries.has, hleft]; rfl
      rw [hm.right_only t hhas, ho.right_only t hhas]
  | some v =>
      cases hright : Entries.get? right (.name t) with
      | none =>
          have hhas : Entries.has right (.name t) = false := by rw [Entries.has, hright]; rfl
          rw [hm.left_only t hhas, ho.left_only t hhas]
      | some w => rw [hm.both t v w hleft hright, ho.both t v w hleft hright]

/-- A numbered weave follows the rule. Each part of it is a fact about weaving or numbering. -/
theorem mergesTo_number (left right : Entries Value) :
    MergesTo left right (number 0 (weave merge left.slots right.slots)) where
  order := by
    rw [Entries.map_name?_eq, slots_number, map_fst_weave, Entries.map_name?_eq,
      Entries.map_name?_eq]
    refine congrArg _ (List.filter_congr fun name _ => ?_)
    cases name with
    | none => rfl
    | some t =>
        rw [Option.bind_some, find?_slots, Option.any_some, Entries.has, Option.not_isSome]
  numbered := by
    rw [filter_isIndex_number, loose_weave, Entries.indexed_eq_loose, Entries.indexed_eq_loose,
      Entries.ofValues]
  left_only t h := by
    rw [Entries.has, Option.isSome_eq_false_iff, Option.isNone_iff_eq_none, ← find?_slots] at h
    rw [get?_number, ← find?_slots]
    cases hleft : find? left.slots t with
    | none => rw [find?_weave_of_none merge _ _ t hleft, h]
    | some v => rw [find?_weave_of_some merge _ _ t v hleft, h]; rfl
  right_only t h := by
    rw [Entries.has, Option.isSome_eq_false_iff, Option.isNone_iff_eq_none, ← find?_slots] at h
    rw [get?_number, ← find?_slots, find?_weave_of_none merge _ _ t h]
  both t v w hv hw := by
    rw [← find?_slots] at hv hw
    rw [get?_number, find?_weave_of_some merge _ _ t v hv, hw]
    rfl

/-- The merge of two containers is what the rule says and nothing else. A merge with an empty
    container renumbers the other one. The bound is the one that indices set: of those from 0 on
    there are 2^63. -/
theorem mergeEntries_rule (left right : Entries Value) (hleft : left.Distinct)
    (hright : right.Distinct) (hroom : left.indices.length + right.indices.length ≤ 2 ^ 63) :
    (∀ merged, merged = mergeEntries left right ↔ MergesTo left right merged) ∧
      mergeEntries left right = absorb [] (left ++ right) ∧
      mergeEntries left [] = left.renumber ∧ mergeEntries [] right = right.renumber := by
  rw [Entries.length_indices, Entries.length_indices] at hroom
  have hnl := nodup_names_slots left hleft
  have hnr := nodup_names_slots right hright
  have hmerge := mergeEntries_eq_number left right hnl hnr hroom
  have hrule : MergesTo left right (mergeEntries left right) := hmerge ▸ mergesTo_number left right
  have hdistinct : (names (mergeEntries left right).slots).Nodup := by
    rw [hmerge, slots_number]
    exact nodup_names_weave merge _ _ hnl hnr
  refine ⟨fun merged => ⟨?_, fun h => (hrule.unique h hdistinct).symm⟩,
    mergeEntries_eq_absorb_append left right hnl (by omega), rfl, ?_⟩
  · rintro rfl
    exact hrule
  · exact absorb_nil right hnr (by omega)

/-- Sparse, negative and largest indices on both sides, a name that both have, and names that only
    one has, with an index inside that stays what it is. -/
theorem mergeEntries_rule_of_sparse :
    let left := [(.index Int64.maxValue, string "a"), (.name "k", container [(.index 5, int 1)]),
      (.index (-3), bool true), (.name "l", container [(.index 7, null)])]
    let right := [(.index Int64.maxValue, string "b"), (.name "r", container [(.index 9, null)]),
      (.name "k", int 2)]
    Entries.Distinct left ∧ Entries.Distinct right ∧
      (Entries.indices left).length + (Entries.indices right).length ≤ 2 ^ 63 ∧
      MergesTo left right [(.index 0, string "a"),
        (.name "k", container [(.index 0, int 1), (.index 1, int 2)]), (.index 1, bool true),
        (.name "l", container [(.index 7, null)]), (.index 2, string "b"),
        (.name "r", container [(.index 9, null)])] := by
  intro left right
  have hleft : (Entries.keys left).Nodup := by decide
  have hright : (Entries.keys right).Nodup := by decide
  have hroom : (Entries.indices left).length + (Entries.indices right).length ≤ 2 ^ 63 := by
    simp [left, right, Entries.indices, Key.index?]
  refine ⟨hleft, hright, hroom, ((mergeEntries_rule left right hleft hright hroom).1 _).mp ?_⟩
  simp [left, right, mergeEntries, Entries.renumber, Entries.renumberFrom, absorb, combine,
    Entries.push, Entries.nextIndex, Entries.indices, Entries.get?, Entries.overwrite, toEntries,
    Key.index?]
  exact ⟨by decide, by decide⟩

end Value

end DocTree
