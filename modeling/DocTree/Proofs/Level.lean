import Mathlib
import DocTree.Proofs.Flatten
import DocTree.Proofs.Indices

/-!
# Keys of a Flattened Level

A second wildcard chooses among the keys of a level, in which the entries of all children
stand together. Its names are those of the children. Its indices are not: every entry
under an index, of any child, is numbered anew, and so is every child that is a scalar.

Still no index of a child is lost, if no child leaves one out. There are as many indices
in the level as entries under an index in all children, so at least as many as in any
one of them. The other way round a level may well have indices that no child has.

The count is exact until the indices from 0 on run out, and they are all there then.
`Numbered` says both at once, and is what adding an entry preserves.

## Main definitions

* `Key.isNatural`: a name, or an index from 0 on.
* `Key.Gapless`: the indices among the keys are the first so many from 0 on.
* `Forest.Numbered`: a level with at least so many indices.

## Theorems

* `mem_keys_flattenEntry_iff`, `name_mem_keys_foldl_iff`: the names of a level.
* `numbered_foldl_flattenEntry`: the indices of a level.
* `nodup_natural_keys_level`: no name, and no index from 0 on, comes twice.
* `mem_of_mem_keys_level`, `mem_keys_level`: the keys of a level and those of the children.
-/

namespace DocTree

namespace Key

/-- The key is a name, or an index from 0 on. -/
def isNatural : Key → Bool
  | index i => 0 ≤ i.toInt
  | name _ => true

/-- The indices among the keys are the first so many from 0 on. -/
def Gapless (keys : List Key) : Prop :=
  ∃ m : Nat, ∀ i : Int64, index i ∈ keys ↔ 0 ≤ i.toInt ∧ i.toInt < m

theorem ofNat_toNat_toInt (i : Int64) (h : 0 ≤ i.toInt) : Int64.ofNat i.toInt.toNat = i := by
  have hrange := i.toInt_lt
  rw [← Int64.toInt_inj, Int64.toInt_ofNat_of_lt (by omega)]
  omega

theorem isNatural_of_gapless (keys : List Key) (h : Gapless keys) (key : Key) (hkey : key ∈ keys) :
    key.isNatural = true := by
  cases key with
  | name t => rfl
  | index i =>
      rcases h with ⟨m, hm⟩
      exact decide_eq_true ((hm i).mp hkey).1

end Key

namespace Entries

variable {α : Type}

theorem keys_push (c : Entries α) (v : α) :
    keys (push c v) = keys c ++ [.index (nextIndex c)] := by
  rw [push, keys_append]
  rfl

theorem indices_append (c d : Entries α) : indices (c ++ d) = indices c ++ indices d :=
  List.filterMap_append

theorem indices_eq (c : Entries α) :
    indices c = (keys c).filterMap fun key => key.index?.map Int64.toInt := by
  rw [keys, List.filterMap_map]
  rfl

/-- A name changes no index. -/
theorem indices_insert_name (c : Entries α) (t : String) (w : α) :
    indices (insert c (.name t) w) = indices c := by
  rw [indices_eq, keys_insert]
  split
  · exact (indices_eq c).symm
  · rw [List.filterMap_append, ← indices_eq]
    exact List.append_nil _

/-- Without a gap, an index is smaller than the number of indices. -/
theorem lt_length_indices_of_gapless (c : Entries α) (h : Key.Gapless (keys c)) (i : Int64)
    (hi : Key.index i ∈ keys c) : i.toInt.toNat < (indices c).length := by
  rcases h with ⟨m, hm⟩
  have hrange := i.toInt_lt
  rcases (hm i).mp hi with ⟨hlow, hhigh⟩
  have hnodup : ((List.range (i.toInt.toNat + 1)).map fun j : Nat => (j : Int)).Nodup :=
    List.nodup_range.map fun _ _ h => Int.ofNat.inj h
  -- All the indices up to this one are there.
  have hsubset : ((List.range (i.toInt.toNat + 1)).map fun j : Nat => (j : Int)) ⊆ c.indices := by
    intro j hj
    rcases List.mem_map.mp hj with ⟨k, hk, rfl⟩
    rw [List.mem_range] at hk
    have hsame : (Int64.ofNat k).toInt = k := Int64.toInt_ofNat_of_lt (by omega)
    rw [← hsame, mem_indices_iff, hm, hsame]
    omega
  have hlength := (hnodup.subperm hsubset).length_le
  rwa [List.length_map, List.length_range] at hlength

/-- The next index is a new one, if it is one from 0 on. -/
theorem nodup_natural_keys_push (c : Entries α) (v : α)
    (hc : ((keys c).filter Key.isNatural).Nodup) :
    ((keys (push c v)).filter Key.isNatural).Nodup := by
  rw [keys_push, List.filter_append]
  -- Where all indices from 0 on are taken, the next one is the smallest that there is.
  by_cases hnatural : (Key.index (nextIndex c)).isNatural = true
  · have hfresh : Key.index (nextIndex c) ∉ keys c := by
      refine (nextIndex_eq_or_not_mem_keys c).resolve_right fun hlast => ?_
      rw [hlast.2] at hnatural
      exact absurd hnatural (by decide)
    rw [List.filter_cons_of_pos hnatural, List.filter_nil]
    refine hc.append (List.nodup_singleton _) (List.disjoint_singleton.mpr fun hmem => ?_)
    exact hfresh (List.mem_of_mem_filter hmem)
  · rwa [List.filter_cons_of_neg hnatural, List.filter_nil, List.append_nil]

theorem nodup_natural_keys_insert (c : Entries α) (key : Key) (w : α)
    (hc : ((keys c).filter Key.isNatural).Nodup) :
    ((keys (insert c key w)).filter Key.isNatural).Nodup := by
  rw [keys_insert]
  split
  · exact hc
  · rename_i hkey
    rw [List.filter_append]
    refine hc.append ((List.nodup_singleton key).filter _) fun k hk hnew => hkey ?_
    rw [← List.mem_singleton.mp (List.mem_of_mem_filter hnew)]
    exact List.mem_of_mem_filter hk

end Entries

namespace Forest

/-! ## One entry -/

theorem mem_keys_flattenEntry_iff (level : Entries Value) (e : Key × Value) (key : Key) :
    key ∈ Entries.keys (flattenEntry level e) ↔
      key ∈ Entries.keys level ∨
        key = if e.1.isIndex then .index (Entries.nextIndex level) else e.1 := by
  unfold flattenEntry
  split
  · rw [Entries.keys_push, List.mem_append, List.mem_singleton]
  · rw [Entries.keys_insert]
    split
    · rename_i hmem
      exact ⟨Or.inl, fun h => h.elim id fun heq => heq ▸ hmem⟩
    · rw [List.mem_append, List.mem_singleton]

theorem nodup_natural_keys_flattenEntry (level : Entries Value) (e : Key × Value)
    (h : ((Entries.keys level).filter Key.isNatural).Nodup) :
    ((Entries.keys (flattenEntry level e)).filter Key.isNatural).Nodup := by
  unfold flattenEntry
  split
  · exact Entries.nodup_natural_keys_push level e.2 h
  · exact Entries.nodup_natural_keys_insert level e.1 e.2 h

/-- The level has numbered `k` values: its indices are 0, 1, 2, … in order, or else it has all that
    there are from 0 on. -/
def Numbered (level : Entries Value) (k : Nat) : Prop :=
  (k ≤ 2 ^ 63 ∧
      Entries.indices level = (List.range' 0 k).map fun i => (Int64.ofNat i).toInt) ∨
    ∀ i < 2 ^ 63, Key.index (Int64.ofNat i) ∈ Entries.keys level

theorem Numbered.mem_keys {level : Entries Value} {k : Nat} (h : Numbered level k) (i : Nat)
    (hk : i < k) (hi : i < 2 ^ 63) : Key.index (Int64.ofNat i) ∈ Entries.keys level := by
  rcases h with ⟨_, hindices⟩ | hall
  · rw [← Entries.mem_indices_iff, hindices]
    exact List.mem_map.mpr ⟨i, by simpa using hk, rfl⟩
  · exact hall i hi

theorem numbered_flattenEntry (level : Entries Value) (k : Nat) (h : Numbered level k)
    (e : Key × Value) : Numbered (flattenEntry level e) (k + (Entries.indices [e]).length) := by
  rcases e with ⟨key, v⟩
  cases key with
  | name t =>
      have hsame : Entries.indices (flattenEntry level (.name t, v)) = Entries.indices level :=
        Entries.indices_insert_name level t v
      refine h.imp (fun hcount => ⟨hcount.1, hsame.trans hcount.2⟩) fun hall i hi => ?_
      exact (mem_keys_flattenEntry_iff level _ _).mpr (Or.inl (hall i hi))
  | index j =>
      have hkept : ∀ key ∈ Entries.keys level,
          key ∈ Entries.keys (flattenEntry level (.index j, v)) :=
        fun key hkey => (mem_keys_flattenEntry_iff level _ _).mpr (Or.inl hkey)
      by_cases hroom : k < 2 ^ 63
      · rcases h with ⟨_, hindices⟩ | hall
        · -- The next index is the count so far.
          refine Or.inl ⟨hroom, ?_⟩
          have hnext := Slots.nextIndex_of_indices level k hindices hroom
          have hpush : flattenEntry level (.index j, v) = Entries.push level v := rfl
          rw [hpush, Entries.push, hnext, Entries.indices_append, hindices]
          change _ = ((List.range' 0 (k + 1)).map fun i => (Int64.ofNat i).toInt)
          rw [List.range'_concat, List.map_append, Nat.one_mul, Nat.zero_add]
          rfl
        · exact Or.inr fun i hi => hkept _ (hall i hi)
      · -- All indices are taken.
        exact Or.inr fun i hi => hkept _ (h.mem_keys i (by omega) hi)

/-! ## All entries -/

theorem name_mem_keys_foldl_iff (level es : Entries Value) (t : String) :
    Key.name t ∈ Entries.keys (es.foldl flattenEntry level)
      ↔ Key.name t ∈ Entries.keys level ∨ Key.name t ∈ Entries.keys es := by
  induction es generalizing level with
  | nil => simp [Entries.keys]
  | cons e es ih =>
      rw [List.foldl_cons, ih, mem_keys_flattenEntry_iff]
      rcases e with ⟨key, v⟩
      cases key <;> simp [Entries.keys, Key.isIndex, or_assoc]

theorem numbered_foldl_flattenEntry (level es : Entries Value) (k : Nat) (h : Numbered level k) :
    Numbered (es.foldl flattenEntry level) (k + (Entries.indices es).length) := by
  induction es generalizing level k with
  | nil => exact h
  | cons e es ih =>
      have hsplit : (Entries.indices (e :: es)).length
          = (Entries.indices [e]).length + (Entries.indices es).length := by
        rw [← List.length_append, ← Entries.indices_append, List.singleton_append]
      rw [hsplit, ← Nat.add_assoc]
      exact ih _ _ (numbered_flattenEntry level k h e)

theorem nodup_natural_keys_foldl (level es : Entries Value)
    (h : ((Entries.keys level).filter Key.isNatural).Nodup) :
    ((Entries.keys (es.foldl flattenEntry level)).filter Key.isNatural).Nodup := by
  induction es generalizing level with
  | nil => exact h
  | cons e es ih => exact ih _ (nodup_natural_keys_flattenEntry level e h)

/-! ## Levels -/

/-- No name, and no index from 0 on, comes twice in a level. -/
theorem nodup_natural_keys_level (vs : List Value) :
    ((Entries.keys (vs.foldl flattenInto [])).filter Key.isNatural).Nodup := by
  rw [foldl_flattenInto]
  exact nodup_natural_keys_foldl [] _ List.nodup_nil

/-- A key of a level is an index, or a name of a child. -/
theorem mem_of_mem_keys_level (vs : List Value) (key : Key)
    (h : key ∈ Entries.keys (vs.foldl flattenInto [])) :
    (∃ i, key = .index i) ∨ ∃ c, .container c ∈ vs ∧ key ∈ Entries.keys c := by
  cases key with
  | index i => exact Or.inl ⟨i, rfl⟩
  | name t =>
      rw [foldl_flattenInto, name_mem_keys_foldl_iff] at h
      have hmem := h.resolve_left List.not_mem_nil
      rcases List.mem_map.mp hmem with ⟨e, he, ht⟩
      rcases List.mem_flatMap.mp he with ⟨v, hv, hev⟩
      cases v with
      | container c => exact Or.inr ⟨c, hv, List.mem_map.mpr ⟨e, hev, ht⟩⟩
      | _ =>
          -- A scalar is flattened without a name.
          rw [List.mem_singleton.mp hev] at ht
          exact absurd ht (by simp)

/-- A level has all names of a child, and if the child leaves out no index, all its indices. -/
theorem mem_keys_level (vs : List Value) (c : Entries Value) (hc : .container c ∈ vs)
    (hgapless : Key.Gapless (Entries.keys c)) (key : Key) (h : key ∈ Entries.keys c) :
    key ∈ Entries.keys (vs.foldl flattenInto []) := by
  have hsublist : c.Sublist (vs.flatMap Value.toEntries) :=
    List.sublist_flatten_of_mem (List.mem_map.mpr ⟨_, hc, rfl⟩)
  rw [foldl_flattenInto]
  cases key with
  | name t =>
      rw [name_mem_keys_foldl_iff]
      exact Or.inr ((hsublist.map Prod.fst).subset h)
  | index i =>
      have hrange := i.toInt_lt
      have hlow : 0 ≤ i.toInt := of_decide_eq_true (Key.isNatural_of_gapless _ hgapless _ h)
      -- There are as many indices in the level as in all children together.
      have hlength : (Entries.indices c).length
          ≤ (Entries.indices (vs.flatMap Value.toEntries)).length :=
        (hsublist.filterMap _).length_le
      have hlt := Entries.lt_length_indices_of_gapless c hgapless i h
      have hnumbered := numbered_foldl_flattenEntry [] (vs.flatMap Value.toEntries) 0
        (Or.inl ⟨Nat.zero_le _, rfl⟩)
      have hmem := hnumbered.mem_keys i.toInt.toNat (by omega) (by omega)
      rwa [Key.ofNat_toNat_toInt i hlow] at hmem

end Forest

end DocTree
