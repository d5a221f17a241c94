import Mathlib
import DocTree.Proofs.Entries
import DocTree.Proofs.Key
import DocTree.Proofs.Merge.Slots

/-!
# Indices and Distinct Keys

The operations on sequences write without looking for an entry that has the key
already. That makes no second entry with a key, because they choose keys that nobody
has: the next index is free as long as there are indices left, and renumbering keeps
no index at all.

Both have the same limit. There are 2^63 indices from 0 on, and a container with more
entries than that would run out of them; no memory holds one.

## Theorems

* `firstFreeIndex_not_mem_indices`, `firstFreeIndex_le`: the first free index is free, and it is
  an index unless all are taken.
* `nextIndex_eq_or_not_mem_keys`, `nextIndex_not_mem_keys`: the next index is not among the keys.
* `distinct_push`, `distinct_insert`, `distinct_collect`: writing keeps keys distinct.
* `distinct_number`, `distinct_renumber`: numbered entries have distinct keys if the names are
  distinct.
-/

namespace DocTree

namespace Entries

variable {α : Type}

/-- A number is among the indices if the key of that number is among the keys. -/
theorem mem_indices_iff (c : Entries α) (i : Int64) :
    i.toInt ∈ indices c ↔ Key.index i ∈ keys c := by
  simp only [indices, keys, List.mem_filterMap, List.mem_map, Option.map_eq_some_iff]
  constructor
  · rintro ⟨⟨k, v⟩, he, j, hj, hij⟩
    cases k with
    | index k =>
        rw [Key.index?, Option.some.injEq] at hj
        exact ⟨_, he, by rw [hj, Int64.toInt_inj.mp hij]⟩
    | name s => exact absurd hj (by simp [Key.index?])
  · rintro ⟨⟨k, v⟩, he, rfl⟩
    exact ⟨_, he, i, rfl, rfl⟩

theorem length_indices_le (c : Entries α) : (indices c).length ≤ c.length :=
  List.length_filterMap_le _ _

/-- The first free index is no larger than the number of entries. -/
theorem firstFreeIndex_le_length (c : Entries α) : firstFreeIndex c ≤ c.length := by
  unfold firstFreeIndex
  cases hfind : (List.range (c.length + 1)).find? fun i : Nat => (i : Int) ∉ c.indices with
  | none => exact Nat.le_refl _
  | some i =>
      have hmem := List.mem_of_find?_eq_some hfind
      rw [List.mem_range] at hmem
      exact Nat.lt_succ_iff.mp hmem

/-- The entries cannot take up all of the first `length + 1` indices. -/
theorem firstFreeIndex_not_mem_indices (c : Entries α) :
    ((firstFreeIndex c : Nat) : Int) ∉ c.indices := by
  unfold firstFreeIndex
  cases hfind : (List.range (c.length + 1)).find? fun i : Nat => (i : Int) ∉ c.indices with
  | some i => simpa using List.find?_some hfind
  | none =>
      have hall : ∀ i ∈ List.range (c.length + 1), (i : Int) ∈ c.indices := by
        simpa using hfind
      -- Else there would be more indices than entries.
      have hnodup : ((List.range (c.length + 1)).map fun i : Nat => (i : Int)).Nodup :=
        List.nodup_range.map fun _ _ h => Int.ofNat.inj h
      have hsubset : ((List.range (c.length + 1)).map fun i : Nat => (i : Int)) ⊆ c.indices := by
        intro j hj
        rcases List.mem_map.mp hj with ⟨i, hi, rfl⟩
        exact hall i hi
      have hlength := (hnodup.subperm hsubset).length_le
      rw [List.length_map, List.length_range] at hlength
      exact absurd (hlength.trans c.length_indices_le) (Nat.not_succ_le_self _)

/-- The first free index is in range, or else just past it: nothing but indices is in use. -/
theorem firstFreeIndex_le (c : Entries α) : firstFreeIndex c ≤ 2 ^ 63 := by
  unfold firstFreeIndex
  by_contra hlt
  rw [not_le] at hlt
  have hunused : ((2 ^ 63 : Nat) : Int) ∉ c.indices := by
    intro hmem
    simp only [indices, List.mem_filterMap, Option.map_eq_some_iff] at hmem
    rcases hmem with ⟨e, _, i, _, hi⟩
    have hrange := i.toInt_lt
    omega
  cases hfind : (List.range (c.length + 1)).find? fun i : Nat => (i : Int) ∉ c.indices with
  | none =>
      -- Then even 2^63 would be in use.
      rw [hfind, Option.getD_none] at hlt
      have hall := List.find?_eq_none.mp hfind (2 ^ 63) (List.mem_range.mpr (by omega))
      exact hall (by simpa using hunused)
  | some i =>
      rw [hfind, Option.getD_some] at hlt
      have hsmaller := (List.find?_range_eq_some.mp hfind).2.2 (2 ^ 63) hlt
      exact absurd hsmaller (by simpa using hunused)

/-- The next index is free, unless all indices from 0 on are taken. -/
theorem nextIndex_eq_or_not_mem_keys (c : Entries α) :
    Key.index (nextIndex c) ∉ keys c ∨
      firstFreeIndex c = 2 ^ 63 ∧ nextIndex c = Int64.minValue := by
  rw [← mem_indices_iff, nextIndex]
  cases hmax : (indices c).max? with
  | none =>
      rw [List.max?_eq_none_iff] at hmax
      exact Or.inl (by simp [hmax])
  | some m =>
      have hle : ∀ j ∈ indices c, j ≤ m := (List.max?_eq_some_iff.mp hmax).2
      dsimp only
      cases hnext : Decimal.int64? (m + 1) with
      | some j =>
          -- There is an index past the largest one.
          rw [Decimal.int64?_eq_some_iff] at hnext
          rw [Option.getD_some, ← hnext]
          refine Or.inl fun hmem => ?_
          have := hle _ hmem
          omega
      | none =>
          rw [Option.getD_none]
          -- There is none past the largest one, so the smallest free one is taken, if it is in
          -- range.
          rcases Nat.lt_or_eq_of_le c.firstFreeIndex_le with hlt | heq
          · rw [Int64.toInt_ofNat_of_lt hlt]
            exact Or.inl (firstFreeIndex_not_mem_indices c)
          · exact Or.inr ⟨heq, by rw [heq]; rfl⟩

/-- The next index is free while there are fewer entries than indices from 0 on. -/
theorem nextIndex_not_mem_keys (c : Entries α) (h : c.length < 2 ^ 63) :
    Key.index (nextIndex c) ∉ keys c := by
  have hfree := firstFreeIndex_le_length c
  exact (nextIndex_eq_or_not_mem_keys c).resolve_right fun hlast => by omega

/-! ## Distinct keys -/

theorem keys_append (c d : Entries α) : keys (c ++ d) = keys c ++ keys d :=
  List.map_append

/-- A new key at the end keeps keys distinct. -/
theorem distinct_concat (c : Entries α) (key : Key) (v : α) (hc : c.Distinct)
    (hkey : key ∉ keys c) : Distinct (c ++ [(key, v)]) := by
  rw [Distinct, keys_append]
  exact hc.append (List.nodup_singleton key) (List.disjoint_singleton.mpr hkey)

/-- A value that is pushed gets a key of its own. -/
theorem distinct_push (c : Entries α) (v : α) (hc : c.Distinct) (h : c.length < 2 ^ 63) :
    Distinct (push c v) :=
  distinct_concat c _ v hc (nextIndex_not_mem_keys c h)

/-- Inserting keeps keys distinct, whether the key was there or not. -/
theorem distinct_insert (c : Entries α) (key : Key) (w : α) (hc : c.Distinct) :
    Distinct (insert c key w) := by
  rw [Distinct, keys_insert]
  split
  · exact hc
  · rename_i hkey
    exact List.Nodup.append hc (List.nodup_singleton key) (List.disjoint_singleton.mpr hkey)

/-- A map has distinct keys, whatever pairs it is made of. -/
theorem distinct_collect (pairs : List (Key × α)) : Distinct (collect pairs) := by
  -- For the induction, the fold has to start from any entries with distinct keys.
  have hfold : ∀ c : Entries α, c.Distinct →
      Distinct (pairs.foldl (fun c e => insert c e.1 e.2) c) := by
    induction pairs with
    | nil => exact fun c hc => hc
    | cons e pairs ih => exact fun c hc => ih _ (distinct_insert c e.1 e.2 hc)
  exact hfold [] List.nodup_nil

end Entries

namespace Slots

variable {α : Type}

/-- The keys of numbered slots: indices from `n` on, and the names. -/
theorem mem_keys_number_iff (n : Nat) (s : Slots α) (key : Key) :
    key ∈ Entries.keys (number n s) ↔
      (∃ i, n ≤ i ∧ i < n + unnamed s ∧ key = .index (Int64.ofNat i)) ∨
        ∃ t ∈ names s, key = .name t := by
  -- Induction on the slots. A slot without a name takes the next number, and one with a name takes
  -- none.
  induction s generalizing n with
  | nil =>
      simp only [number, Entries.keys, List.map_nil, List.not_mem_nil, names, List.filterMap_nil,
        false_and, exists_false, or_false, false_iff, unnamed, List.countP_nil]
      rintro ⟨i, hlow, hhigh, -⟩
      omega
  | cons e s ih =>
      rcases e with ⟨name, v⟩
      simp only [Entries.keys] at ih
      cases name with
      | none =>
          rw [unnamed_cons_none]
          simp only [number, Entries.keys, List.map_cons, List.mem_cons, ih, names,
            List.filterMap_cons]
          constructor
          · rintro (rfl | ⟨i, hlow, hhigh, rfl⟩ | hname)
            · exact Or.inl ⟨n, by omega, by omega, rfl⟩
            · exact Or.inl ⟨i, by omega, by omega, rfl⟩
            · exact Or.inr hname
          · rintro (⟨i, hlow, hhigh, rfl⟩ | hname)
            · by_cases hi : i = n
              · exact Or.inl (by rw [hi])
              · exact Or.inr (Or.inl ⟨i, by omega, by omega, rfl⟩)
            · exact Or.inr (Or.inr hname)
      | some t =>
          rw [unnamed_cons_some]
          simp only [number, Entries.keys, List.map_cons, List.mem_cons, ih, names,
            List.filterMap_cons, exists_eq_or_imp]
          exact or_left_comm

/-- Numbered slots have distinct keys if their names are distinct and there are indices for the
    others. -/
theorem distinct_number (n : Nat) (s : Slots α) (hnames : (names s).Nodup)
    (hroom : n + unnamed s ≤ 2 ^ 63) : Entries.Distinct (number n s) := by
  induction s generalizing n with
  | nil => exact List.nodup_nil
  | cons e s ih =>
      rcases e with ⟨name, v⟩
      cases name with
      | none =>
          rw [unnamed_cons_none] at hroom
          have hnew : Key.index (Int64.ofNat n) ∉ Entries.keys (number (n + 1) s) := by
            rw [mem_keys_number_iff]
            rintro (⟨i, hlow, hhigh, heq⟩ | ⟨t, _, heq⟩)
            · -- Two indices in range with the same bits are the same.
              have hbits := congrArg Int64.toInt (Key.index.inj heq)
              rw [Int64.toInt_ofNat_of_lt (by omega), Int64.toInt_ofNat_of_lt (by omega)] at hbits
              omega
            · exact absurd heq (by simp)
          exact List.nodup_cons.mpr ⟨hnew, ih (n + 1) hnames (by omega)⟩
      | some t =>
          rw [unnamed_cons_some] at hroom
          have hnodup : t ∉ names s ∧ (names s).Nodup := List.nodup_cons.mp hnames
          have hnew : Key.name t ∉ Entries.keys (number n s) := by
            rw [mem_keys_number_iff]
            rintro (⟨i, _, _, heq⟩ | ⟨r, hr, heq⟩)
            · exact absurd heq (by simp)
            · rw [Key.name.inj heq] at hnodup
              exact hnodup.1 hr
          exact List.nodup_cons.mpr ⟨hnew, ih n hnodup.2 hroom⟩

end Slots

namespace Entries

variable {α : Type}

/-- Renumbered entries have distinct keys if they had distinct names before. -/
theorem distinct_renumber (c : Entries α) (hnames : (Slots.names c.slots).Nodup)
    (hroom : c.length ≤ 2 ^ 63) : Distinct (renumber c) := by
  have hcount : Slots.unnamed c.slots ≤ c.length := by
    rw [← length_indices]
    exact length_indices_le c
  rw [renumber, ← Slots.number_slots]
  exact Slots.distinct_number 0 c.slots hnames (by omega)

end Entries

end DocTree
