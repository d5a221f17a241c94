import Mathlib
import DocTree.View.Resolve
import DocTree.Proofs.Merge.WellKeyed

/-!
# Flattened Levels

A wildcard goes on from a level of its own, in which the entries of all children stand
together. Entries under indices get new ones, and of two entries with one name the later
value wins. So a level is well-keyed if the children are, and it is no larger than they
are together.

## Main definitions

* `Forest.flattenEntry`: what becomes of a level when an entry is added to it.

## Theorems

* `foldl_flattenInto`: a level is made of the entries of all children.
* `keyedBy_foldl_flattenInto`: a level of well-keyed children is well-keyed.
* `entriesSize_foldl_flattenInto`: a level is no larger than what it is made of.
-/

namespace DocTree

/-- An insertion adds the size of its value at most. -/
theorem Value.entriesSize_insert_le (c : Entries Value) (key : Key) (w : Value) :
    entriesSize (Entries.insert c key w) ≤ entriesSize c + w.size := by
  rcases Entries.exists_place_insert_or_append c key w with ⟨front, v, back, rfl, hinsert⟩ | hinsert
  · rw [hinsert, entriesSize_append, entriesSize_append, entriesSize, entriesSize]
    omega
  · rw [hinsert, entriesSize_append, entriesSize, entriesSize, Nat.add_zero]

/-- Entries under different keys are no larger than all entries together. -/
theorem Value.sum_size_get?_le (c : Entries Value) (keys : List Key) (h : keys.Nodup) :
    ((keys.filterMap fun key => Entries.get? c key).map size).sum ≤ entriesSize c := by
  induction c generalizing keys with
  | nil => simp [Entries.get?]
  | cons e c ih =>
      rcases e with ⟨k, v⟩
      -- Under other keys than that of the first entry, the others are read.
      have hrest : ∀ ks : List Key, k ∉ ks →
          (ks.filterMap fun key => Entries.get? ((k, v) :: c) key)
            = ks.filterMap fun key => Entries.get? c key := by
        refine fun ks hks => List.filterMap_congr fun key hkey => ?_
        rw [Entries.get?, if_neg]
        rintro rfl
        exact hks hkey
      rw [entriesSize]
      -- If the first key is asked for, its value stands for the first entry, and the other keys for
      -- the rest.
      by_cases hk : k ∈ keys
      · have hperm := ((List.perm_cons_erase hk).filterMap fun key =>
          Entries.get? ((k, v) :: c) key).map size
        rw [hperm.sum_eq, List.filterMap_cons_some (by rw [Entries.get?, if_pos rfl]),
          hrest _ h.not_mem_erase, List.map_cons, List.sum_cons]
        exact Nat.add_le_add_left (ih _ (h.erase k)) _
      · rw [hrest keys hk]
        exact (ih keys h).trans (Nat.le_add_left _ _)

/-- The children under different keys are smaller than the value that they are children of. -/
theorem Value.sum_size_child?_lt (v : Value) (keys : List Key) (h : keys.Nodup) :
    ((keys.filterMap fun key => v.child? key).map size).sum < v.size := by
  cases v with
  | container c =>
      rw [size]
      exact Nat.lt_succ_of_le (sum_size_get?_le c keys h)
  | _ => simp [child?, entries?, size]

namespace Forest

/-- What becomes of a level when an entry of a child is added to it. -/
def flattenEntry (level : Entries Value) (e : Key × Value) : Entries Value :=
  if e.1.isIndex then Entries.push level e.2 else Entries.insert level e.1 e.2

/-- A child is flattened entry by entry, and a scalar as the sequence of itself. -/
theorem flattenInto_eq_foldl (level : Entries Value) (v : Value) :
    flattenInto level v = v.toEntries.foldl flattenEntry level := by
  cases v <;> rfl

/-- A level is made of the entries of all children, in their order. -/
theorem foldl_flattenInto (level : Entries Value) (vs : List Value) :
    vs.foldl flattenInto level = (vs.flatMap Value.toEntries).foldl flattenEntry level := by
  -- A loop over the children, with one over the entries of each, is a loop over all entries.
  rw [List.foldl_flatMap]
  exact congrArg (List.foldl · level vs) (funext₂ flattenInto_eq_foldl)

/-- No entry of a level is ever removed. -/
theorem length_le_flattenEntry (level : Entries Value) (e : Key × Value) :
    level.length ≤ (flattenEntry level e).length := by
  unfold flattenEntry
  split
  · rw [Entries.length_push]
    exact Nat.le_succ _
  · exact Entries.length_le_insert level e.1 e.2

/-- So a level only grows. -/
theorem length_le_foldl_flattenEntry (level es : Entries Value) :
    level.length ≤ (es.foldl flattenEntry level).length := by
  induction es generalizing level with
  | nil => exact Nat.le_refl _
  | cons e es ih => exact (length_le_flattenEntry level e).trans (ih _)

variable {P : Key → Prop}

/-- Adding well-keyed values under canonical keys to a well-keyed level leaves it well-keyed, if
    there is room for all of them. -/
theorem keyedBy_foldl_flattenEntry (hP : Key.Covers P) (level es : Entries Value)
    (hlevel : (Value.container level).KeyedBy P)
    (hes : ∀ e ∈ es, P e.1 ∧ e.2.KeyedBy P)
    (hroom : (es.foldl flattenEntry level).length ≤ 2 ^ 63) :
    (Value.container (es.foldl flattenEntry level)).KeyedBy P := by
  -- On the entries that are to come. The level so far has keys of the kind.
  induction es generalizing level with
  | nil => exact hlevel
  | cons e es ih =>
      rcases hes e List.mem_cons_self with ⟨hkey, hvalue⟩
      refine ih (flattenEntry level e) ?_ (fun e' he' => hes e' (List.mem_cons_of_mem _ he')) hroom
      have hlength := (length_le_foldl_flattenEntry (flattenEntry level e) es).trans hroom
      unfold flattenEntry at hlength ⊢
      split
      · -- The level is longer after the push and still fits, so there was an index left.
        rename_i hindex
        rw [if_pos hindex, Entries.length_push] at hlength
        exact Value.keyedBy_push hP level e.2 hlevel hvalue (by omega)
      · exact Value.keyedBy_insert level e.1 e.2 hlevel hkey hvalue

/-- A level of well-keyed values is well-keyed, if there is room for it. -/
theorem keyedBy_foldl_flattenInto (hP : Key.Covers P) (vs : List Value)
    (hvs : ∀ v ∈ vs, v.KeyedBy P) (hroom : (vs.foldl flattenInto []).length ≤ 2 ^ 63) :
    (Value.container (vs.foldl flattenInto [])).KeyedBy P := by
  rw [foldl_flattenInto] at hroom ⊢
  refine keyedBy_foldl_flattenEntry hP [] _ Value.keyedBy_nil (fun e he => ?_) hroom
  -- Each entry comes from one of the values.
  rcases List.mem_flatMap.mp he with ⟨v, hv, he⟩
  have hentries := Value.keyedBy_toEntries hP v (hvs v hv)
  rw [Value.keyedBy_container_iff] at hentries
  exact ⟨hentries.1.2 e.1 (List.mem_map_of_mem he), hentries.2 e.2 (List.mem_map_of_mem he)⟩

/-! ## Sizes -/

theorem entriesSize_foldl_flattenEntry (level es : Entries Value) :
    Value.entriesSize (es.foldl flattenEntry level)
      ≤ Value.entriesSize level + Value.entriesSize es := by
  induction es generalizing level with
  | nil => exact Nat.le_refl _
  | cons e es ih =>
      rcases e with ⟨key, v⟩
      -- Each entry adds its own size at most.
      have hentry : Value.entriesSize (flattenEntry level (key, v))
          ≤ Value.entriesSize level + v.size := by
        unfold flattenEntry
        split
        · rw [Value.entriesSize_push]
        · exact Value.entriesSize_insert_le level key v
      have hrest := ih (flattenEntry level (key, v))
      rw [List.foldl_cons, Value.entriesSize]
      omega

/-- A flattened level is no larger than the values that it is made of. -/
theorem entriesSize_foldl_flattenInto (vs : List Value) :
    Value.entriesSize (vs.foldl flattenInto []) ≤ (vs.map Value.size).sum := by
  have hentries : Value.entriesSize (vs.flatMap Value.toEntries) ≤ (vs.map Value.size).sum := by
    induction vs with
    | nil => exact Nat.le_refl _
    | cons v vs ih =>
        have hv := Value.entriesSize_toEntries_le v
        rw [List.flatMap_cons, Value.entriesSize_append, List.map_cons, List.sum_cons]
        omega
  rw [foldl_flattenInto]
  have hlevel := entriesSize_foldl_flattenEntry [] (vs.flatMap Value.toEntries)
  rw [Value.entriesSize, Nat.zero_add] at hlevel
  exact hlevel.trans hentries

end Forest

end DocTree
