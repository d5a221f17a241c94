import Mathlib
import DocTree.Proofs.Entries
import DocTree.Proofs.Nesting
import DocTree.Proofs.Merge.Weave

/-!
# Associativity of Merging

Three values can be merged from the left or from the right, and the result is the same
to the last index and the order of entries.

The two sides do not take the same steps. Merging from the left numbers the first two
values before the third one arrives, merging from the right numbers the last two first,
and a scalar becomes a sequence at different times. On slots none of this is seen: both
sides weave the same three lists, and weaving is associative if merging is, on values
that share a name. Such values are inside of all three containers, so the induction is
on the first value alone. A scalar has no names and ends it, and it does not matter that
taking a scalar as a sequence makes it no smaller.

Indices are 64-bit numbers, so there are only so many of them. The theorem asks for no
more than 2^63 values in all, which is what the indices from 0 on can tell apart and
more than any memory holds.

## Main definitions

* `Value.slots`: the slots of a container, or the single one of a scalar.

## Theorems

* `unnamed_slots_le`: there are no more slots without a name than values.
* `nodup_names_slots_of_distinct`: a value with distinct keys has slots with distinct names.
* `slots_merge`: the slots of a merge are a weave.
* `merge_assoc_of_slots`: one level of a merge of three.
* `merge_assoc`: merging is associative.
-/

namespace DocTree

namespace Value

open Slots

/-- The slots of a container, or the one slot of a scalar, which has no name. -/
def slots (v : Value) : Slots Value :=
  v.toEntries.slots

theorem unnamed_slots_le (v : Value) : unnamed v.slots ≤ v.size := by
  calc unnamed v.slots ≤ v.slots.length := List.countP_le_length
    _ = v.toEntries.length := List.length_map _
    _ ≤ entriesSize v.toEntries := length_le_entriesSize _
    _ ≤ v.size := entriesSize_toEntries_le v

theorem nodup_names_slots_of_distinct (v : Value) (h : v.Distinct) : (names v.slots).Nodup :=
  nodup_names_slots v.toEntries (distinct_toEntries v h).1

theorem merge_eq_number (a b : Value) (ha : (names a.slots).Nodup) (hb : (names b.slots).Nodup)
    (hroom : unnamed a.slots + unnamed b.slots ≤ 2 ^ 63) :
    merge a b = container (number 0 (weave merge a.slots b.slots)) := by
  rw [merge, mergeEntries_eq_number a.toEntries b.toEntries ha hb hroom, slots, slots]

/-- The slots of a merge are those of both sides in one weave, as long as there are indices for
    all that need one. -/
theorem slots_merge (a b : Value) (ha : (names a.slots).Nodup) (hb : (names b.slots).Nodup)
    (hroom : unnamed a.slots + unnamed b.slots ≤ 2 ^ 63) :
    (merge a b).slots = weave merge a.slots b.slots := by
  rw [merge_eq_number a b ha hb hroom, slots, toEntries, slots_number]

theorem nodup_names_slots_merge (a b : Value) (ha : (names a.slots).Nodup)
    (hb : (names b.slots).Nodup) (hroom : unnamed a.slots + unnamed b.slots ≤ 2 ^ 63) :
    (names (merge a b).slots).Nodup := by
  rw [slots_merge a b ha hb hroom]
  exact nodup_names_weave merge a.slots b.slots ha hb

theorem unnamed_slots_merge (a b : Value) (ha : (names a.slots).Nodup)
    (hb : (names b.slots).Nodup) (hroom : unnamed a.slots + unnamed b.slots ≤ 2 ^ 63) :
    unnamed (merge a b).slots = unnamed a.slots + unnamed b.slots := by
  rw [slots_merge a b ha hb hroom, unnamed_weave]

/-- A value under a name is one of those in the container. -/
theorem of_find?_slots (v w : Value) (t : String) (hv : v.Distinct)
    (h : find? v.slots t = some w) : w.Distinct ∧ w.size ≤ v.size := by
  rw [slots, find?_slots] at h
  have hmem := Entries.mem_of_get? _ _ _ h
  exact ⟨distinct_of_mem _ _ (distinct_toEntries v hv).2 hmem,
    Nat.le_trans (size_le_of_mem _ _ hmem) (entriesSize_toEntries_le v)⟩

/-- Merging is associative on three values if it is on those that they have under a common name. -/
theorem merge_assoc_of_slots (a b c : Value) (ha : a.Distinct) (hb : b.Distinct)
    (hc : c.Distinct) (hroom : a.size + b.size + c.size ≤ 2 ^ 63)
    (h : ∀ t x y z, (some t, x) ∈ a.slots → find? b.slots t = some y → find? c.slots t = some z →
      merge (merge x y) z = merge x (merge y z)) :
    merge (merge a b) c = merge a (merge b c) := by
  have hna := nodup_names_slots_of_distinct a ha
  have hnb := nodup_names_slots_of_distinct b hb
  have hnc := nodup_names_slots_of_distinct c hc
  have hcount : unnamed a.slots + unnamed b.slots + unnamed c.slots ≤ 2 ^ 63 := by
    have hua := unnamed_slots_le a
    have hub := unnamed_slots_le b
    have huc := unnamed_slots_le c
    omega
  have hab : unnamed a.slots + unnamed b.slots ≤ 2 ^ 63 := by omega
  have hbc : unnamed b.slots + unnamed c.slots ≤ 2 ^ 63 := by omega
  -- Both sides are numbered from the same weave of three.
  have hleft : merge (merge a b) c
      = container (number 0 (weave merge (weave merge a.slots b.slots) c.slots)) := by
    have hroom' : unnamed (merge a b).slots + unnamed c.slots ≤ 2 ^ 63 := by
      rw [unnamed_slots_merge a b hna hnb hab]
      omega
    rw [merge_eq_number (merge a b) c (nodup_names_slots_merge a b hna hnb hab) hnc hroom',
      slots_merge a b hna hnb hab]
  have hright : merge a (merge b c)
      = container (number 0 (weave merge a.slots (weave merge b.slots c.slots))) := by
    have hroom' : unnamed a.slots + unnamed (merge b c).slots ≤ 2 ^ 63 := by
      rw [unnamed_slots_merge b c hnb hnc hbc]
      omega
    rw [merge_eq_number a (merge b c) hna (nodup_names_slots_merge b c hnb hnc hbc) hroom',
      slots_merge b c hnb hnc hbc]
  rw [hleft, hright, weave_assoc merge a.slots b.slots c.slots h]

/-- Merging is associative, entry order and indices included. The bound is the one that indices
    set: `nextIndex` counts on a free one, and a container that holds all of those from 0 on has
    none left for another value. -/
theorem merge_assoc (a b c : Value) (ha : a.Distinct) (hb : b.Distinct) (hc : c.Distinct)
    (hroom : a.size + b.size + c.size ≤ 2 ^ 63) :
    merge (merge a b) c = merge a (merge b c) := by
  induction a using forall_of_entries generalizing b c with
  | scalar v hscalar =>
      refine merge_assoc_of_slots v b c ha hb hc hroom fun t x y z hx _ _ => ?_
      -- The only slot of a scalar has no name.
      cases v with
      | container entries => exact absurd hscalar (by simp [isContainer])
      | _ => exact absurd hx (by simp [slots, toEntries, Entries.slots, Entries.ofValues,
          Entries.numberedFrom, Key.name?])
  | nested entries ih =>
      refine merge_assoc_of_slots _ b c ha hb hc hroom fun t x y z hx hy hz => ?_
      have hentry : ∃ e ∈ entries, e.2 = x := by
        rcases List.mem_map.mp hx with ⟨e, he, heq⟩
        exact ⟨e, he, congrArg Prod.snd heq⟩
      rcases hentry with ⟨e, he, rfl⟩
      -- The three values are inside of the three containers.
      have hsize : (container entries).size = entriesSize entries + 1 := rfl
      have hxsize := size_le_of_mem entries e he
      have hxdistinct := distinct_of_mem entries e ha.2 he
      rcases of_find?_slots b y t hb hy with ⟨hydistinct, hysize⟩
      rcases of_find?_slots c z t hc hz with ⟨hzdistinct, hzsize⟩
      exact ih e he y z hxdistinct hydistinct hzdistinct (by omega)

/-- A sparse index, a negative one and the largest one, and a name that is taken by a container, a
    scalar and a container in turn. -/
theorem merge_assoc_of_sparse :
    let a := container [(.index 7, int 1), (.name "k", container [(.index (-1), null)])]
    let b := container [(.name "k", string "x"), (.index Int64.maxValue, bool true)]
    let c := container [(.index (-5), int 2), (.name "k", container [(.name "k", int 3)])]
    a.Distinct ∧ b.Distinct ∧ c.Distinct ∧ a.size + b.size + c.size ≤ 2 ^ 63 ∧
      merge (merge a b) c = merge a (merge b c) := by
  intro a b c
  have ha : a.Distinct := by simp [a, Distinct, EntriesDistinct, Entries.Distinct, Entries.keys]
  have hb : b.Distinct := by simp [b, Distinct, EntriesDistinct, Entries.Distinct, Entries.keys]
  have hc : c.Distinct := by simp [c, Distinct, EntriesDistinct, Entries.Distinct, Entries.keys]
  have hroom : a.size + b.size + c.size ≤ 2 ^ 63 := by simp [a, b, c, size, entriesSize]
  exact ⟨ha, hb, hc, hroom, merge_assoc a b c ha hb hc hroom⟩

end Value

end DocTree
