import Mathlib
import DocTree.Proofs.Indices

/-!
# Maps of Pairs

What is left of pairs when they are collected into a map. Each key stands where it came
first and holds what came last. Together with distinct keys that fixes the map: entries
with distinct keys are their keys in order, with what can be read under each.

## Theorems

* `keys_collect`: the keys in the order in which they came first.
* `mem_of_mem_collect`: what is collected is one of the pairs.
* `get?_collect_eq_some_iff`: under a key, the value that came last.
* `filterMap_get?_keys`, `ext_get?`: entries with distinct keys are what can be read.
* `collect_unique`: the map is the only one with these keys and values.
-/

namespace DocTree

namespace Entries

variable {α : Type}

/-! ## Distinct keys -/

/-- Entries with distinct keys are what can be read under their keys. -/
theorem filterMap_get?_keys (c : Entries α) (h : c.Distinct) :
    ((keys c).filterMap fun key => (get? c key).map (key, ·)) = c := by
  induction c with
  | nil => rfl
  | cons e c ih =>
      rcases e with ⟨k, v⟩
      have hnodup : k ∉ keys c ∧ (keys c).Nodup := List.nodup_cons.mp h
      -- The first key does not occur among the others, so it hides none of them.
      have hrest : ((keys c).filterMap fun key => (get? ((k, v) :: c) key).map (key, ·)) = c := by
        refine Eq.trans (List.filterMap_congr fun key hkey => ?_) (ih hnodup.2)
        rw [get?, if_neg fun hk : k = key => hnodup.1 (by rwa [hk])]
      rw [show keys ((k, v) :: c) = k :: keys c from rfl,
        List.filterMap_cons_some (by rw [get?, if_pos rfl, Option.map_some]), hrest]

/-- With distinct keys, every entry can be read under its key. -/
theorem get?_of_mem (c : Entries α) (hc : c.Distinct) (e : Key × α) (h : e ∈ c) :
    get? c e.1 = some e.2 := by
  rw [← filterMap_get?_keys c hc, List.mem_filterMap] at h
  rcases h with ⟨key, _, hget⟩
  rcases Option.map_eq_some_iff.mp hget with ⟨v, hv, rfl⟩
  exact hv

/-- Entries with distinct keys are the same if they have the same keys, in order, with the same
    values. -/
theorem ext_get? (c d : Entries α) (hc : c.Distinct) (hkeys : keys c = keys d)
    (hget : ∀ key ∈ keys c, get? c key = get? d key) : c = d := by
  have hd : d.Distinct := by rwa [Distinct, ← hkeys]
  rw [← filterMap_get?_keys c hc, ← filterMap_get?_keys d hd, ← hkeys]
  exact List.filterMap_congr fun key hkey => by rw [hget key hkey]

/-! ## Collecting -/

theorem collect_concat (pairs : List (Key × α)) (e : Key × α) :
    collect (pairs ++ [e]) = insert (collect pairs) e.1 e.2 := by
  rw [collect, List.foldl_append]
  rfl

/-- Keys stand in the order in which they came first. -/
theorem keys_collect (pairs : List (Key × α)) : keys (collect pairs) = (keys pairs).eraseDups := by
  -- Induction from the end, since pairs are inserted in their order.
  induction pairs using List.reverseRecOn with
  | nil => rfl
  | append_singleton pairs e ih =>
      have hlast : keys [e] = [e.1] := rfl
      rw [collect_concat, keys_insert, ih, keys_append, hlast, List.eraseDups_append]
      by_cases hkey : e.1 ∈ keys pairs
      · -- The key has come before and stays where it is, or it is new and comes last.
        have hnone : [e.1].removeAll (keys pairs) = [] := by simp [List.removeAll, hkey]
        rw [if_pos (List.mem_eraseDups.mpr hkey), hnone]
        exact (List.append_nil _).symm
      · have hsome : [e.1].removeAll (keys pairs) = [e.1] := by simp [List.removeAll, hkey]
        rw [if_neg fun h => hkey (List.mem_eraseDups.mp h), hsome]
        rfl

/-- Under each key stands the value that came last. -/
theorem get?_collect (pairs : List (Key × α)) (key : Key) :
    get? (collect pairs) key = get? pairs.reverse key := by
  induction pairs using List.reverseRecOn with
  | nil => rfl
  | append_singleton pairs e ih =>
      rcases e with ⟨k, v⟩
      rw [collect_concat, List.reverse_concat, get?]
      -- The last pair decides for its own key and leaves the others as they were.
      by_cases hkey : k = key
      · rw [if_pos hkey, ← hkey, get?_insert_self]
      · rw [if_neg hkey, get?_insert_of_ne _ _ _ _ fun h => hkey h.symm, ih]

/-- Collecting makes no entries that are not among the pairs. -/
theorem mem_of_mem_collect (pairs : List (Key × α)) (e : Key × α) (h : e ∈ collect pairs) :
    e ∈ pairs := by
  have hget := get?_of_mem _ (distinct_collect pairs) e h
  rw [get?_collect] at hget
  exact List.mem_reverse.mp (mem_of_get? _ _ _ hget)

/-- A value stands under a key if it came under the key and no other did after it. -/
theorem get?_collect_eq_some_iff (pairs : List (Key × α)) (key : Key) (v : α) :
    get? (collect pairs) key = some v ↔
      ∃ front back, pairs = front ++ (key, v) :: back ∧ key ∉ keys back := by
  have hmem (d : Entries α) : key ∈ keys d.reverse ↔ key ∈ keys d := by
    rw [keys, List.map_reverse, List.mem_reverse, keys]
  -- The first entry of the reversed pairs is the last one of the pairs.
  rw [get?_collect, get?_eq_some_iff]
  constructor
  · rintro ⟨front, back, heq, hfront⟩
    refine ⟨back.reverse, front.reverse, ?_, fun h => hfront ((hmem front).mp h)⟩
    rw [← List.reverse_reverse pairs, heq]
    simp
  · rintro ⟨front, back, rfl, hback⟩
    exact ⟨back.reverse, front.reverse, by simp, fun h => hback ((hmem back).mp h)⟩

/-- Only one map has each key where it came first and holds under it what came last. -/
theorem collect_unique (pairs : List (Key × α)) (c : Entries α)
    (hkeys : keys c = (keys pairs).eraseDups)
    (hlast : ∀ e ∈ c, ∃ front back, pairs = front ++ e :: back ∧ e.1 ∉ keys back) :
    c = collect pairs := by
  have hkeys' : keys (collect pairs) = keys c := by rw [keys_collect, hkeys]
  refine (ext_get? _ _ (distinct_collect pairs) hkeys' fun key hkey => ?_).symm
  rw [hkeys', ← isSome_get?_iff, Option.isSome_iff_exists] at hkey
  rcases hkey with ⟨v, hv⟩
  rw [hv, get?_collect_eq_some_iff]
  exact hlast _ (mem_of_get? c key v hv)

end Entries

end DocTree
