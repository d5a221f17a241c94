import Mathlib
import DocTree.Entries

/-!
# Entries as a Map

How reading and writing of entries go together. A read sees the first entry with
a key, and a write over that entry keeps its place, so a write changes what is
read under one key and leaves the list of keys alone.

## Theorems

* `isSome_get?_iff`: a key can be read exactly if it is among the keys.
* `mem_of_get?`: what can be read is an entry.
* `keys_overwrite`: overwriting keeps the keys in their order.
* `get?_overwrite_self`: an overwritten entry holds the new value.
* `get?_overwrite_of_ne`: other entries are untouched by an overwrite.
* `overwrite_overwrite`: of two overwrites of one entry only the second is seen.
* `overwrite_of_get?`: an overwrite with the value that is there changes nothing.
* `overwrite_comm`: overwrites of two entries may be made in either order.
* `keys_insert`: inserting keeps the keys in their order, and a new one comes last.
* `get?_insert_self`, `get?_insert_of_ne`: what can be read after inserting.
* `insert_insert`: of two writes under one key only the second is seen.
* `get?_append`: of two lists the first is read first.
* `get?_filter_of_get?`, `get?_filter_eq_none`: what can be read when entries are left out.
* `keys_erase_of_distinct`, `get?_erase_self`, `get?_erase_of_ne`: what is left after removing.
* `get?_eq_some_iff`: what can be read is the first entry with the key.
* `insert_append`, `overwrite_append`, `erase_append`: entries before the one with the key stay.
* `exists_place_overwrite`, `exists_place_insert_or_append`: a write changes one place.
-/

namespace DocTree

namespace Entries

variable {α : Type}

/-- A key can be read exactly if some entry has it. -/
theorem isSome_get?_iff (c : Entries α) (key : Key) : (get? c key).isSome ↔ key ∈ keys c := by
  -- Along the entries, as reading goes. Either the first one has the key, or the key is looked for
  -- behind it.
  induction c with
  | nil => simp [get?, keys]
  | cons e c ih =>
      rcases e with ⟨k, v⟩
      by_cases hk : k = key
      · simp [get?, keys, hk]
      · have hk' : key ≠ k := fun h => hk h.symm
        simp only [keys, List.map_cons, List.mem_cons, hk', false_or, get?, if_neg hk]
        exact ih

/-- What is read under a key is an entry with that key. -/
theorem mem_of_get? (c : Entries α) (key : Key) (v : α) (h : get? c key = some v) :
    (key, v) ∈ c := by
  induction c with
  | nil => simp [get?] at h
  | cons e c ih =>
      rcases e with ⟨k, u⟩
      by_cases hk : k = key
      · simp only [get?, if_pos hk, Option.some.injEq] at h
        simp [hk, h]
      · simp only [get?, if_neg hk] at h
        exact List.mem_cons_of_mem _ (ih h)

/-- An overwrite changes values only. -/
theorem keys_overwrite (c : Entries α) (key : Key) (w : α) :
    keys (overwrite c key w) = keys c := by
  induction c with
  | nil => rfl
  | cons e c ih =>
      rcases e with ⟨k, v⟩
      by_cases hk : k = key
      · simp only [overwrite, if_pos hk, keys, List.map_cons]
      · simp only [overwrite, if_neg hk, keys, List.map_cons]
        exact congrArg (k :: ·) ih

/-- What was written over an entry is read there. -/
theorem get?_overwrite_self (c : Entries α) (key : Key) (w : α) (h : (get? c key).isSome) :
    get? (overwrite c key w) key = some w := by
  induction c with
  | nil => simp [get?] at h
  | cons e c ih =>
      rcases e with ⟨k, v⟩
      by_cases hk : k = key
      · simp only [overwrite, if_pos hk, get?]
      · simp only [get?, if_neg hk] at h
        simp only [overwrite, if_neg hk, get?]
        exact ih h

/-- Under other keys the same is read as before. -/
theorem get?_overwrite_of_ne (c : Entries α) (key other : Key) (w : α) (hne : other ≠ key) :
    get? (overwrite c key w) other = get? c other := by
  induction c with
  | nil => rfl
  | cons e c ih =>
      rcases e with ⟨k, v⟩
      by_cases hk : k = key
      · -- The entry written has another key than the one read.
        have hko : k ≠ other := fun h => hne (h.symm.trans hk)
        simp only [overwrite, if_pos hk, get?, if_neg hko]
      · simp only [overwrite, if_neg hk, get?, ih]

/-- A second overwrite of an entry hides the first. -/
theorem overwrite_overwrite (c : Entries α) (key : Key) (u w : α) :
    overwrite (overwrite c key u) key w = overwrite c key w := by
  induction c with
  | nil => rfl
  | cons e c ih =>
      rcases e with ⟨k, v⟩
      by_cases hk : k = key
      · simp only [overwrite, if_pos hk]
      · simp only [overwrite, if_neg hk, ih]

/-- Writing the value that is there changes nothing. -/
theorem overwrite_of_get? (c : Entries α) (key : Key) (v : α) (h : get? c key = some v) :
    overwrite c key v = c := by
  induction c with
  | nil => rfl
  | cons e c ih =>
      rcases e with ⟨k, u⟩
      by_cases hk : k = key
      · rw [get?, if_pos hk, Option.some.injEq] at h
        rw [overwrite, if_pos hk, h]
      · rw [get?, if_neg hk] at h
        rw [overwrite, if_neg hk, ih h]

/-- Two entries may be overwritten in either order. -/
theorem overwrite_comm (c : Entries α) (key other : Key) (u w : α) (hne : other ≠ key) :
    overwrite (overwrite c key u) other w = overwrite (overwrite c other w) key u := by
  induction c with
  | nil => rfl
  | cons e c ih =>
      rcases e with ⟨k, v⟩
      by_cases hk : k = key
      · -- The first entry is written once on both sides.
        have hko : k ≠ other := fun h => hne (h.symm.trans hk)
        simp only [overwrite, if_pos hk, if_neg hko]
      · by_cases hko : k = other
        · simp only [overwrite, if_neg hk, if_pos hko]
        · simp only [overwrite, if_neg hk, if_neg hko, ih]

/-- A key that is there keeps its place, and another one comes last. -/
theorem keys_insert (c : Entries α) (key : Key) (w : α) :
    keys (insert c key w) = if key ∈ keys c then keys c else keys c ++ [key] := by
  induction c with
  | nil => rfl
  | cons e c ih =>
      rcases e with ⟨k, v⟩
      by_cases hk : k = key
      · simp [insert, keys, hk]
      · have hk' : key ≠ k := fun h => hk h.symm
        simp only [keys] at ih
        simp only [insert, if_neg hk, keys, List.map_cons, List.mem_cons, hk', false_or, ih]
        -- The first key stays in front in both cases.
        exact apply_ite (k :: ·) _ _ _

/-- What was inserted is read under its key. -/
theorem get?_insert_self (c : Entries α) (key : Key) (w : α) :
    get? (insert c key w) key = some w := by
  induction c with
  | nil => simp only [insert, get?, if_pos]
  | cons e c ih =>
      rcases e with ⟨k, v⟩
      by_cases hk : k = key
      · simp only [insert, if_pos hk, get?]
      · simp only [insert, if_neg hk, get?, ih]

/-- Under other keys the same is read as before the insertion. -/
theorem get?_insert_of_ne (c : Entries α) (key other : Key) (w : α) (hne : other ≠ key) :
    get? (insert c key w) other = get? c other := by
  induction c with
  | nil => simp only [insert, get?, if_neg (Ne.symm hne)]
  | cons e c ih =>
      rcases e with ⟨k, v⟩
      by_cases hk : k = key
      · -- The entry written has another key than the one read.
        have hko : k ≠ other := fun h => hne (h.symm.trans hk)
        simp only [insert, if_pos hk, get?, if_neg hko]
      · simp only [insert, if_neg hk, get?, ih]

/-- A second insertion under a key hides the first. -/
theorem insert_insert (c : Entries α) (key : Key) (u w : α) :
    insert (insert c key u) key w = insert c key w := by
  induction c with
  | nil => simp only [insert, if_pos]
  | cons e c ih =>
      rcases e with ⟨k, v⟩
      by_cases hk : k = key
      · simp only [insert, if_pos hk]
      · simp only [insert, if_neg hk, ih]

/-- What the first list does not have is read from the second. -/
theorem get?_append (c d : Entries α) (key : Key) :
    get? (c ++ d) key = (get? c key).or (get? d key) := by
  induction c with
  | nil => rfl
  | cons e c ih =>
      rcases e with ⟨k, v⟩
      by_cases hk : k = key
      · simp only [List.cons_append, get?, if_pos hk, Option.some_or]
      · simp only [List.cons_append, get?, if_neg hk, ih]

theorem get?_eq_none_iff (c : Entries α) (key : Key) : get? c key = none ↔ key ∉ keys c := by
  rw [← Option.not_isSome_iff_eq_none, isSome_get?_iff]

/-- A key cannot be read any more once all its entries are left out. -/
theorem get?_filter_eq_none (c : Entries α) (key : Key) (p : Key × α → Bool)
    (h : ∀ v, p (key, v) = false) : get? (c.filter p) key = none := by
  rw [get?_eq_none_iff]
  intro hmem
  rcases List.mem_map.mp hmem with ⟨⟨k, v⟩, he, rfl⟩
  -- An entry with the key would have been left out.
  exact absurd (List.mem_filter.mp he).2 (by simp [h v])

/-! ## Removing -/

/-- One entry is removed, so one key is. -/
theorem keys_erase (c : Entries α) (key : Key) : keys (erase c key) = (keys c).erase key := by
  induction c with
  | nil => rfl
  | cons e c ih =>
      rcases e with ⟨k, v⟩
      by_cases hk : k = key
      · simp [erase, keys, hk]
      · simp only [keys] at ih
        simp [erase, keys, hk, ih]

/-- Of distinct keys the one that is removed is gone, and the others are in their order. -/
theorem keys_erase_of_distinct (c : Entries α) (key : Key) (hc : c.Distinct) :
    keys (erase c key) = (keys c).filter (· ≠ key) := by
  rw [keys_erase, List.Nodup.erase_eq_filter hc]
  exact List.filter_congr fun k _ => (decide_not).symm

/-- With distinct keys nothing is left under the one that was removed. -/
theorem get?_erase_self (c : Entries α) (key : Key) (hc : c.Distinct) :
    get? (erase c key) key = none := by
  rw [get?_eq_none_iff, keys_erase]
  exact hc.not_mem_erase

/-- Under other keys the same is read as before the removal. -/
theorem get?_erase_of_ne (c : Entries α) (key other : Key) (hne : other ≠ key) :
    get? (erase c key) other = get? c other := by
  induction c with
  | nil => rfl
  | cons e c ih =>
      rcases e with ⟨k, v⟩
      by_cases hk : k = key
      · -- The entry removed has another key than the one read.
        have hko : k ≠ other := fun h => hne (h.symm.trans hk)
        simp only [erase, if_pos hk, get?, if_neg hko]
      · simp only [erase, if_neg hk, get?, ih]

/-! ## The place of a key -/

/-- What can be read is the first entry with the key. -/
theorem get?_eq_some_iff (c : Entries α) (key : Key) (v : α) :
    get? c key = some v ↔ ∃ front back, c = front ++ (key, v) :: back ∧ key ∉ keys front := by
  constructor
  · intro h
    induction c with
    | nil => exact absurd h (by simp [get?])
    | cons e c ih =>
        rcases e with ⟨k, u⟩
        by_cases hk : k = key
        · rw [get?, if_pos hk] at h
          -- The first entry has the key, and nothing is before it.
          exact ⟨[], c, by rw [hk, Option.some.inj h, List.nil_append], List.not_mem_nil⟩
        · rw [get?, if_neg hk] at h
          -- It has another key, and stands before the place.
          rcases ih h with ⟨front, back, rfl, hfront⟩
          exact ⟨(k, u) :: front, back, rfl,
            List.not_mem_cons_of_ne_of_not_mem (fun heq => hk heq.symm) hfront⟩
  · rintro ⟨front, back, rfl, hfront⟩
    rw [get?_append, (get?_eq_none_iff front key).mpr hfront, Option.none_or, get?, if_pos rfl]

/-- An entry that is read is still read when others are left out, since those before it have other
    keys. -/
theorem get?_filter_of_get? (c : Entries α) (key : Key) (v : α) (p : Key × α → Bool)
    (h : get? c key = some v) (hp : p (key, v) = true) : get? (c.filter p) key = some v := by
  rcases (get?_eq_some_iff c key v).mp h with ⟨front, back, rfl, hfront⟩
  refine (get?_eq_some_iff _ key v).mpr ⟨front.filter p, back.filter p, ?_, fun hmem => ?_⟩
  · rw [List.filter_append, List.filter_cons_of_pos hp]
  · -- What is kept before the place was before it already.
    exact hfront ((List.filter_sublist.map Prod.fst).subset hmem)

/-- A key is that of some entry, with none before it that has the same one, or it is not among
    the keys. -/
theorem exists_place_or_not_mem (c : Entries α) (key : Key) :
    (∃ front v back, c = front ++ (key, v) :: back ∧ key ∉ keys front) ∨ key ∉ keys c := by
  rw [← get?_eq_none_iff]
  cases hget : get? c key with
  | none => exact Or.inr rfl
  | some v =>
      rcases (get?_eq_some_iff c key v).mp hget with ⟨front, back, hc, hfront⟩
      exact Or.inl ⟨front, v, back, hc, hfront⟩

section

variable (front c : Entries α) (key : Key) (w : α)

/-- A write goes past the entries that do not have the key. -/
theorem insert_append (h : key ∉ keys front) :
    insert (front ++ c) key w = front ++ insert c key w := by
  induction front with
  | nil => rfl
  | cons e front ih =>
      rcases e with ⟨k, v⟩
      rw [keys, List.map_cons, List.mem_cons, not_or] at h
      rw [List.cons_append, insert, if_neg fun hk => h.1 hk.symm, ih h.2, List.cons_append]

/-- So does an overwrite. -/
theorem overwrite_append (h : key ∉ keys front) :
    overwrite (front ++ c) key w = front ++ overwrite c key w := by
  induction front with
  | nil => rfl
  | cons e front ih =>
      rcases e with ⟨k, v⟩
      rw [keys, List.map_cons, List.mem_cons, not_or] at h
      rw [List.cons_append, overwrite, if_neg fun hk => h.1 hk.symm, ih h.2, List.cons_append]

/-- So does a removal. -/
theorem erase_append (h : key ∉ keys front) :
    erase (front ++ c) key = front ++ erase c key := by
  induction front with
  | nil => rfl
  | cons e front ih =>
      rcases e with ⟨k, v⟩
      rw [keys, List.map_cons, List.mem_cons, not_or] at h
      rw [List.cons_append, erase, if_neg fun hk => h.1 hk.symm, ih h.2, List.cons_append]

/-- A new key gets an entry behind all others. -/
theorem insert_of_not_mem (h : key ∉ keys c) : insert c key w = c ++ [(key, w)] := by
  -- The write goes past everything, to the empty rest.
  have hpast := insert_append c [] key w h
  rwa [List.append_nil] at hpast

/-- Without an entry there is nothing to overwrite. -/
theorem overwrite_of_not_mem (h : key ∉ keys c) : overwrite c key w = c := by
  have hpast := overwrite_append c [] key w h
  rwa [List.append_nil, overwrite, List.append_nil] at hpast

/-- Without an entry there is nothing to remove. -/
theorem erase_of_not_mem (h : key ∉ keys c) : erase c key = c := by
  have hpast := erase_append c [] key h
  rwa [List.append_nil, erase, List.append_nil] at hpast

end

/-- An overwrite changes the value in one place. -/
theorem exists_place_overwrite (c : Entries α) (key : Key) (v w : α) (h : get? c key = some v) :
    ∃ front back, c = front ++ (key, v) :: back ∧
      overwrite c key w = front ++ (key, w) :: back := by
  rcases (get?_eq_some_iff c key v).mp h with ⟨front, back, rfl, hfront⟩
  refine ⟨front, back, rfl, ?_⟩
  rw [overwrite_append _ _ _ _ hfront, overwrite, if_pos rfl]

/-- An insertion changes the value in one place, or adds an entry behind the others. -/
theorem exists_place_insert_or_append (c : Entries α) (key : Key) (w : α) :
    (∃ front v back, c = front ++ (key, v) :: back ∧
      insert c key w = front ++ (key, w) :: back) ∨ insert c key w = c ++ [(key, w)] := by
  rcases exists_place_or_not_mem c key with ⟨front, v, back, rfl, hfront⟩ | hnew
  · refine Or.inl ⟨front, v, back, rfl, ?_⟩
    rw [insert_append _ _ _ _ hfront, insert, if_pos rfl]
  · exact Or.inr (insert_of_not_mem c key w hnew)

end Entries

end DocTree
