import Mathlib
import DocTree.Proofs.Indices

/-!
# Searching for a Free Index

The next index is defined by what it is: one past the largest, or else the smallest that is
free. The smallest free one can be searched for in one pass. The indices from 0 on are sorted
and repetitions are dropped, and a counter goes along with them. As long as they agree, all
indices so far are taken; the first index that is ahead of the counter leaves a gap there; and
if there is no such index, the gap comes after the last one.

The counter is moved on before the index is compared, so it runs one step ahead of the list,
and each step has to stay within 64 bits. It does, since there are fewer indices than entries
and fewer entries than 2^63. Nothing else in the choice of the next index can overflow: the
sum with the largest index is the one that is checked for that.

## Main definitions

* `Entries.ascending`: the indices from 0 on, sorted and without repetitions.
* `Entries.searchFree?`: the search for a gap, with checked steps.
* `Entries.nextIndex?`: the next index, with checked steps.

## Theorems

* `mem_indices_of_lt_firstFreeIndex`: the first free index is the smallest one.
* `mem_ascending_iff`, `pairwise_ascending`: what is searched.
* `exists_gap`: the search finds the first gap.
* `searchFree?_eq`, `nextIndex?_eq`: no step overflows, and the result is the next index.
* `toInt_nextIndex_of_lt`, `toInt_nextIndex_of_maxValue`: which index is next.
* `foldl_push`, `foldl_push_nil`, `distinct_foldl_push`: values that are pushed one after the other.
-/

namespace DocTree

namespace Entries

variable {α : Type}

/-! ## The smallest free index -/

/-- Everything below the first free index is taken. -/
theorem mem_indices_of_lt_firstFreeIndex (c : Entries α) (j : Nat) (h : j < firstFreeIndex c) :
    (j : Int) ∈ indices c := by
  unfold firstFreeIndex at h
  -- Whether the search has found an index or run out, it has passed over all smaller ones.
  cases hfind : (List.range (c.length + 1)).find? fun i : Nat => (i : Int) ∉ c.indices with
  | none =>
      rw [hfind, Option.getD_none] at h
      simpa using List.find?_eq_none.mp hfind j (List.mem_range.mpr (by omega))
  | some i =>
      rw [hfind, Option.getD_some] at h
      simpa using (List.find?_range_eq_some.mp hfind).2.2 j h

/-- Only one number is free while all below it are taken. -/
theorem eq_firstFreeIndex (c : Entries α) (g : Nat) (hfree : (g : Int) ∉ indices c)
    (htaken : ∀ j < g, (j : Int) ∈ indices c) : g = firstFreeIndex c := by
  rcases Nat.lt_trichotomy g (firstFreeIndex c) with hlt | heq | hgt
  · exact absurd (mem_indices_of_lt_firstFreeIndex c g hlt) hfree
  · exact heq
  · exact absurd (htaken _ hgt) (firstFreeIndex_not_mem_indices c)

/-! ## Sorted indices -/

/-- The indices from 0 on, in ascending order and without repetitions. -/
def ascending (c : Entries α) : List Int :=
  (((indices c).filter (0 ≤ ·)).mergeSort).destutter (· ≠ ·)

/-- A number is lost only if it repeats the one before it. -/
theorem mem_destutter'_iff (l : List Int) (a i : Int) :
    i ∈ l.destutter' (· ≠ ·) a ↔ i = a ∨ i ∈ l := by
  induction l generalizing a with
  | nil => simp
  | cons b l ih =>
      rw [List.destutter'_cons]
      split
      · rw [List.mem_cons, ih, List.mem_cons]
      · rename_i hab
        have hab' : a = b := not_not.mp hab
        rw [ih, List.mem_cons, hab', or_self_left]

/-- Sorted numbers ascend once repetitions are dropped. -/
theorem pairwise_destutter' (l : List Int) (a : Int) (h : (a :: l).Pairwise (· ≤ ·)) :
    (l.destutter' (· ≠ ·) a).Pairwise (· < ·) := by
  induction l generalizing a with
  | nil => simp
  | cons b l ih =>
      have hb := List.pairwise_cons.mp h
      have hl := List.pairwise_cons.mp hb.2
      rw [List.destutter'_cons]
      split
      · rename_i hab
        refine List.pairwise_cons.mpr ⟨fun i hi => ?_, ih b hb.2⟩
        -- Sorted numbers that are not equal ascend.
        have hlt : a < b := lt_of_le_of_ne (hb.1 b List.mem_cons_self) hab
        rcases (mem_destutter'_iff l b i).mp hi with rfl | hi
        · exact hlt
        · exact lt_of_lt_of_le hlt (hl.1 i hi)
      · exact ih a (List.pairwise_cons.mpr ⟨fun i hi => hb.1 i (List.mem_cons_of_mem _ hi), hl.2⟩)

/-- What is searched are the indices from 0 on. -/
theorem mem_ascending_iff (c : Entries α) (i : Int) :
    i ∈ ascending c ↔ i ∈ indices c ∧ 0 ≤ i := by
  have hsorted : ∀ l : List Int, i ∈ l.destutter (· ≠ ·) ↔ i ∈ l := by
    intro l
    cases l with
    | nil => simp
    | cons a l => rw [List.destutter_cons', mem_destutter'_iff, List.mem_cons]
  rw [ascending, hsorted, (List.mergeSort_perm _ _).mem_iff, List.mem_filter, decide_eq_true_eq]

/-- They ascend, each one above the one before. -/
theorem pairwise_ascending (c : Entries α) : (ascending c).Pairwise (· < ·) := by
  rw [ascending]
  have hsorted := List.pairwise_mergeSort' (· ≤ ·) ((indices c).filter (0 ≤ ·))
  cases hl : ((indices c).filter (0 ≤ ·)).mergeSort with
  | nil => simp
  | cons a l =>
      rw [hl] at hsorted
      exact pairwise_destutter' l a hsorted

/-- There are no more of them than entries. -/
theorem length_ascending_le (c : Entries α) : (ascending c).length ≤ c.length := by
  have hsub := (List.destutter_sublist (· ≠ ·) ((indices c).filter (0 ≤ ·)).mergeSort).length_le
  rw [List.length_mergeSort] at hsub
  exact (hsub.trans (List.length_filter_le _ _)).trans (length_indices_le c)

/-! ## The search -/

/-- Each of these indices with a count, from `n` on. The counter is moved on each time, and there
    is no result if it runs over. -/
def counted? : Int64 → List Int → Option (List (Int × Int64))
  | _, [] => some []
  | n, i :: is =>
    (Decimal.int64? (n.toInt + 1)).bind fun next => (counted? next is).map ((i, n) :: ·)

/-- The first count that differs from its index, or else the number of indices. -/
def searchFree? (c : Entries α) : Option Int64 :=
  (counted? 0 c.ascending).bind fun es =>
    match es.find? fun e => e.1 ≠ e.2.toInt with
    | some e => some e.2
    | none => Decimal.int64? c.ascending.length

/-- The next index, with every sum and every conversion checked. -/
def nextIndex? (c : Entries α) : Option Int64 :=
  match (indices c).max? with
  | none => some 0
  | some i => (Decimal.int64? (i + 1)).or (searchFree? c)

theorem int64?_ofNat (n : Nat) (h : n < 2 ^ 63) : Decimal.int64? n = some (Int64.ofNat n) :=
  (Decimal.int64?_eq_some_iff _ _).mpr (Int64.toInt_ofNat_of_lt h).symm

/-- Along ascending indices the counter stays in range, and the first difference is the first
    gap. -/
theorem exists_gap (is : List Int) (n : Nat) (hascending : is.Pairwise (· < ·))
    (hlow : ∀ i ∈ is, (n : Int) ≤ i) (hroom : n + is.length < 2 ^ 63) :
    ∃ es, counted? (Int64.ofNat n) is = some es ∧
      ∃ g : Nat, ((es.find? fun e => e.1 ≠ e.2.toInt).map Prod.snd).getD
          (Int64.ofNat (n + is.length)) = Int64.ofNat g ∧
        n ≤ g ∧ (g : Int) ∉ is ∧ ∀ j, n ≤ j → j < g → (j : Int) ∈ is := by
  induction is generalizing n with
  | nil => exact ⟨[], rfl, n, rfl, Nat.le_refl n, List.not_mem_nil, fun j _ _ => by omega⟩
  | cons i is ih =>
      rw [List.length_cons] at hroom
      rw [List.forall_mem_cons] at hlow
      rw [List.pairwise_cons] at hascending
      have hn : (Int64.ofNat n).toInt = (n : Int) := Int64.toInt_ofNat_of_lt (by omega)
      have hnext : Decimal.int64? ((Int64.ofNat n).toInt + 1) = some (Int64.ofNat (n + 1)) := by
        rw [hn]
        exact int64?_ofNat (n + 1) (by omega)
      have hahead : ∀ j ∈ is, ((n + 1 : Nat) : Int) ≤ j := by
        intro j hj
        have := hascending.1 j hj
        omega
      rcases ih (n + 1) hascending.2 hahead (by omega) with
        ⟨es, hes, g, hgap, hle, hfree, htaken⟩
      refine ⟨(i, Int64.ofNat n) :: es, by rw [counted?, hnext, Option.bind_some, hes]; rfl, ?_⟩
      by_cases hi : i = (n : Int)
      · -- This count is taken, and the gap is that of the rest.
        refine ⟨g, ?_, by omega, fun hmem => ?_, fun j hj hjg => ?_⟩
        · rw [List.find?_cons_of_neg (by simp [hn, hi]), List.length_cons,
            show n + (is.length + 1) = n + 1 + is.length by omega]
          exact hgap
        · rcases List.mem_cons.mp hmem with heq | hmem
          · omega
          · exact hfree hmem
        · rcases Nat.eq_or_lt_of_le hj with rfl | hj
          · rw [hi]
            exact List.mem_cons_self
          · exact List.mem_cons_of_mem _ (htaken j hj hjg)
      · -- The index is ahead of the counter, and so are all that follow.
        refine ⟨n, ?_, Nat.le_refl n, fun hmem => ?_, fun j _ _ => by omega⟩
        · rw [List.find?_cons_of_pos (by simp [hn, hi])]
          rfl
        · rcases List.mem_cons.mp hmem with heq | hmem
          · exact hi heq.symm
          · have := hahead _ hmem
            omega

/-- The search has a result, and it is the first free index. -/
theorem searchFree?_eq (c : Entries α) (h : c.length < 2 ^ 63) :
    searchFree? c = some (Int64.ofNat (firstFreeIndex c)) := by
  have hlength := length_ascending_le c
  have hlow : ∀ i ∈ ascending c, ((0 : Nat) : Int) ≤ i :=
    fun i hi => ((mem_ascending_iff c i).mp hi).2
  rcases exists_gap (ascending c) 0 (pairwise_ascending c) hlow (by omega) with
    ⟨es, hes, g, hgap, _, hfree, htaken⟩
  have hfirst : g = firstFreeIndex c := by
    refine eq_firstFreeIndex c g (fun hmem => hfree ?_) fun j hj => ?_
    · exact (mem_ascending_iff c _).mpr ⟨hmem, Int.natCast_nonneg g⟩
    · exact ((mem_ascending_iff c _).mp (htaken j (Nat.zero_le j) hj)).1
  rw [searchFree?, show (0 : Int64) = Int64.ofNat 0 from rfl, hes, Option.bind_some, ← hfirst,
    ← hgap]
  cases es.find? fun e => e.1 ≠ e.2.toInt with
  | some e => rfl
  | none => exact (int64?_ofNat _ (by omega)).trans (by rw [Nat.zero_add]; rfl)

/-- Nothing overflows in the choice of the next index. -/
theorem nextIndex?_eq (c : Entries α) (h : c.length < 2 ^ 63) :
    nextIndex? c = some (nextIndex c) := by
  rw [nextIndex?, nextIndex]
  -- The choice is the same in both, so only the search has to be looked at.
  cases (indices c).max? with
  | none => rfl
  | some i =>
      rw [searchFree?_eq c h]
      cases hnext : Decimal.int64? (i + 1) with
      | some j => simp only [hnext, Option.some_or, Option.getD_some]
      | none => simp only [hnext, Option.none_or, Option.getD_none]

/-! ## Which index is next -/

theorem exists_of_mem_indices (c : Entries α) (j : Int) (h : j ∈ indices c) :
    ∃ i : Int64, i.toInt = j ∧ Key.index i ∈ keys c := by
  have hmem := h
  simp only [indices, List.mem_filterMap, Option.map_eq_some_iff] at h
  rcases h with ⟨_, _, i, _, rfl⟩
  exact ⟨i, rfl, (mem_indices_iff c i).mp hmem⟩

/-- The largest index, as a number. -/
theorem max?_indices (c : Entries α) (i : Int64) (hi : Key.index i ∈ keys c)
    (hmax : ∀ j, Key.index j ∈ keys c → j ≤ i) : (indices c).max? = some i.toInt := by
  refine List.max?_eq_some_iff.mpr ⟨(mem_indices_iff c i).mpr hi, fun j hj => ?_⟩
  rcases exists_of_mem_indices c j hj with ⟨k, rfl, hk⟩
  exact Int64.le_iff_toInt_le.mp (hmax k hk)

/-- Without any index the first one is next. -/
theorem nextIndex_of_no_index (c : Entries α) (h : ∀ i, Key.index i ∉ keys c) :
    nextIndex c = 0 := by
  have hnone : indices c = [] := by
    refine List.eq_nil_iff_forall_not_mem.mpr fun j hj => ?_
    rcases exists_of_mem_indices c j hj with ⟨i, _, hi⟩
    exact h i hi
  rw [nextIndex, hnone]
  rfl

/-- There is an index past the largest one. -/
theorem toInt_nextIndex_of_lt (c : Entries α) (i : Int64) (hi : Key.index i ∈ keys c)
    (hmax : ∀ j, Key.index j ∈ keys c → j ≤ i) (hlt : i < Int64.maxValue) :
    (nextIndex c).toInt = i.toInt + 1 := by
  rw [Int64.lt_iff_toInt_lt, Int64.toInt_maxValue] at hlt
  have hlow := i.le_toInt
  have hnext : Decimal.int64? (i.toInt + 1) = some (Int64.ofInt (i.toInt + 1)) := by
    rw [Decimal.int64?_eq_some_iff, Int64.toInt_ofInt_of_le (by omega) (by omega)]
  rw [nextIndex, max?_indices c i hi hmax]
  simp only [hnext, Option.getD_some]
  exact Int64.toInt_ofInt_of_le (by omega) (by omega)

/-- The largest index is taken, and the smallest free one is next. -/
theorem toInt_nextIndex_of_maxValue (c : Entries α) (hi : Key.index Int64.maxValue ∈ keys c)
    (hroom : c.length < 2 ^ 63) : (nextIndex c).toInt = firstFreeIndex c := by
  have hmax : ∀ j, Key.index j ∈ keys c → j ≤ Int64.maxValue := fun j _ => j.le_maxValue
  have hnext : Decimal.int64? (Int64.maxValue.toInt + 1) = none := by decide
  have hle := firstFreeIndex_le_length c
  rw [nextIndex, max?_indices c _ hi hmax]
  simp only [hnext, Option.getD_none]
  exact Int64.toInt_ofNat_of_lt (by omega)

/-! ## Pushing -/

/-- Values that are pushed one after the other come behind the entries, each under a key of its
    own. -/
theorem foldl_push (c : Entries α) (vs : List α) :
    ∃ added, vs.foldl push c = c ++ added ∧ values added = vs := by
  -- Induction on the values. Each is pushed onto the entries with the ones before it.
  induction vs generalizing c with
  | nil => exact ⟨[], (List.append_nil c).symm, rfl⟩
  | cons v vs ih =>
      rcases ih (push c v) with ⟨added, hfold, hvalues⟩
      refine ⟨(.index (nextIndex c), v) :: added, ?_, congrArg (v :: ·) hvalues⟩
      rw [List.foldl_cons, hfold, push, List.append_assoc]
      rfl

/-- Values that are pushed one after the other keep keys distinct. -/
theorem distinct_foldl_push (c : Entries α) (vs : List α) (hc : c.Distinct)
    (hroom : c.length + vs.length ≤ 2 ^ 63) : Distinct (vs.foldl push c) := by
  induction vs generalizing c with
  | nil => exact hc
  | cons v vs ih =>
      rw [List.length_cons] at hroom
      refine ih (push c v) (distinct_push c v hc (by omega)) ?_
      rw [push, List.length_append, List.length_singleton]
      omega

/-- Values that are pushed onto nothing are a sequence. -/
theorem foldl_push_nil (vs : List α) (hroom : vs.length ≤ 2 ^ 63) :
    vs.foldl push [] = ofValues vs := by
  -- Induction from the end: the next index after so many numbered values is their number.
  induction vs using List.reverseRecOn with
  | nil => rfl
  | append_singleton vs v ih =>
      rw [List.length_append, List.length_singleton] at hroom
      have hunnamed := Slots.unnamed_map_none vs
      rw [List.foldl_append, ih (by omega), List.foldl_cons, List.foldl_nil, ofValues,
        ← number_unnamed, Slots.push_number _ v (by omega), ofValues, ← number_unnamed,
        List.map_append]
      rfl

/-- What is behind the entries does not come before them. -/
theorem get?_append_of_mem (c d : Entries α) (key : Key) (h : key ∈ keys c) :
    get? (c ++ d) key = get? c key := by
  rcases Option.isSome_iff_exists.mp ((isSome_get?_iff c key).mpr h) with ⟨v, hv⟩
  rw [get?_append, hv, Option.some_or]

end Entries

end DocTree
