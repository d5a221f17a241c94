import Mathlib
import DocTree.Proofs.FreeIndex
import DocTree.Proofs.WellKeyed

/-!
# Operations by Position

The operations on entries go by recursion: they stop at the first entry with a key, and an index
is as large as it has to be. An array of entries works otherwise. The position of the key is
searched for first, and then the entry at this position is replaced or taken out, without asking
whether there is one. Indices are counted in 64 bits, and values that are put in front carry the
keys -1, -2, … until they are numbered.

Each operation is defined once more in this way, with no result where a position has no entry or a
number does not fit. None of that happens, and the result is the same. For the positions this is
because an operation that has found a position uses it at once; for the numbers it is because they
count entries, of which there are fewer than 2^63.

## Main definitions

* `Entries.position?`: where the first entry with a key is.
* `Entries.replaceAt?`, `Entries.removeAt?`: an entry by its position.
* `Entries.insertAt?`, `Entries.writeAt?`, `Entries.eraseAt?`: the map operations by position.
* `Entries.push?`, `Entries.renumberFrom?`, `Entries.prepend?`: the sequence operations with
  checked numbers.
* `Entries.collect?`, `Entries.ofValues?`: maps and sequences that are built in this way.

## Theorems

* `position?_cases`: the position of a key is the number of entries before the one that is read.
* `insertAt?_eq`, `writeAt?_eq`, `eraseAt?_eq`, `collect?_eq`: no position is missed.
* `push?_eq`, `renumberFrom?_eq`, `prepend?_eq`, `ofValues?_eq`: no number runs over.
-/

namespace DocTree

namespace Entries

variable {α : Type}

/-! ## Positions -/

/-- The position of the first entry with this key. -/
def position? (c : Entries α) (key : Key) : Option Nat :=
  c.findIdx? fun e => e.1 = key

/-- Puts another value in the entry at a position, and gives the one that was there. -/
def replaceAt? (d : Entries α) (i : Nat) (w : α) : Option (α × Entries α) :=
  d[i]?.map fun e => (e.2, d.set i (e.1, w))

/-- Takes out the entry at a position. -/
def removeAt? (d : Entries α) (i : Nat) : Option ((Key × α) × Entries α) :=
  d[i]?.map fun e => (e, d.eraseIdx i)

section

variable (front back c : Entries α) (key : Key) (v w : α)

theorem position?_of_not_mem (h : key ∉ keys c) : position? c key = none := by
  refine List.findIdx?_eq_none_iff.mpr fun e he => decide_eq_false fun hkey => h ?_
  exact List.mem_map.mpr ⟨e, he, hkey⟩

theorem position?_of_not_mem_front (h : key ∉ keys front) :
    position? (front ++ (key, v) :: back) key = some front.length := by
  -- The search goes past the front and stops at the entry behind it.
  have hfront : front.findIdx? (fun e => decide (e.1 = key)) = none :=
    position?_of_not_mem front key h
  rw [position?, List.findIdx?_append, hfront, Option.none_or,
    List.findIdx?_cons, if_pos (decide_eq_true rfl), Option.map_some, Nat.zero_add]

/-- A position is found exactly if there is something to read, and that is the entry there. -/
theorem position?_cases :
    (∃ front v back, c = front ++ (key, v) :: back ∧ key ∉ keys front ∧ get? c key = some v ∧
      position? c key = some front.length) ∨
    key ∉ keys c ∧ get? c key = none ∧ position? c key = none := by
  rcases exists_place_or_not_mem c key with ⟨front, v, back, rfl, hfront⟩ | hnew
  · have hget := (get?_eq_some_iff _ key v).mpr ⟨front, back, rfl, hfront⟩
    exact Or.inl ⟨front, v, back, rfl, hfront, hget,
      position?_of_not_mem_front front back key v hfront⟩
  · exact Or.inr ⟨hnew, (get?_eq_none_iff c key).mpr hnew, position?_of_not_mem c key hnew⟩

theorem replaceAt?_length :
    replaceAt? (front ++ (key, v) :: back) front.length w
      = some (v, front ++ (key, w) :: back) := by
  simp [replaceAt?]

theorem removeAt?_length :
    removeAt? (front ++ (key, v) :: back) front.length = some ((key, v), front ++ back) := by
  simp [removeAt?, List.eraseIdx_append_of_length_le]

end

/-! ## Maps -/

/-- Writes a value over the entry at the position of the key, or else as a new last entry. Gives
    the value that was there. -/
def insertAt? (c : Entries α) (key : Key) (w : α) : Option (Option α × Entries α) :=
  match position? c key with
  | some i => (replaceAt? c i w).map fun r => (some r.1, r.2)
  | none => some (none, c ++ [(key, w)])

/-- Writes a value into the entry at the position of the key, or else into a new last entry, which
    has a default value before that. Gives the value that was there. -/
def writeAt? (c : Entries α) (key : Key) (default w : α) : Option (α × Entries α) :=
  match position? c key with
  | some i => replaceAt? c i w
  | none =>
    let d := c ++ [(key, default)]
    replaceAt? d (d.length - 1) w

/-- Takes out the entry at the position of the key, if there is one. Gives the value that was
    there. -/
def eraseAt? (c : Entries α) (key : Key) : Option (Option α × Entries α) :=
  match position? c key with
  | some i => (removeAt? c i).map fun r => (some r.1.2, r.2)
  | none => some (none, c)

theorem insertAt?_eq (c : Entries α) (key : Key) (w : α) :
    insertAt? c key w = some (get? c key, insert c key w) := by
  rcases position?_cases c key with
    ⟨front, v, back, rfl, hfront, hget, hposition⟩ | ⟨hnew, hget, hposition⟩
  · -- The recursion goes past the same entries and comes to this one, too.
    rw [insertAt?, hposition, hget, insert_append _ _ _ _ hfront, insert, if_pos rfl]
    dsimp only
    rw [replaceAt?_length, Option.map_some]
  · rw [insertAt?, hposition, hget, insert_of_not_mem c key w hnew]

theorem eraseAt?_eq (c : Entries α) (key : Key) :
    eraseAt? c key = some (get? c key, erase c key) := by
  rcases position?_cases c key with
    ⟨front, v, back, rfl, hfront, hget, hposition⟩ | ⟨hnew, hget, hposition⟩
  · rw [eraseAt?, hposition, hget, erase_append _ _ _ hfront, erase, if_pos rfl]
    dsimp only
    rw [removeAt?_length, Option.map_some]
  · rw [eraseAt?, hposition, hget, erase_of_not_mem c key hnew]

/-- A write into an entry that is there or has just been made is an insertion. -/
theorem overwrite_ensure (c : Entries α) (key : Key) (default w : α) :
    overwrite (ensure c key default) key w = insert c key w := by
  -- An entry that is there is overwritten, and one that has just been made comes last.
  rcases exists_place_or_not_mem c key with ⟨front, v, back, rfl, hfront⟩ | hnew
  · have hhas : has (front ++ (key, v) :: back) key = true := by
      rw [has, isSome_get?_iff, keys_append]
      exact List.mem_append_right _ List.mem_cons_self
    rw [ensure, if_pos hhas, overwrite_append _ _ _ _ hfront, insert_append _ _ _ _ hfront,
      overwrite, if_pos rfl, insert, if_pos rfl]
  · have hhas : ¬ has c key = true := by rwa [has, isSome_get?_iff]
    rw [ensure, if_neg hhas, overwrite_append _ _ _ _ hnew, overwrite, if_pos rfl,
      insert_of_not_mem c key w hnew]

theorem get?_ensure (c : Entries α) (key : Key) (default : α) :
    get? (ensure c key default) key = some ((get? c key).getD default) := by
  rw [ensure, has]
  cases hget : get? c key with
  | none => simp [get?_append, hget, get?]
  | some v => simp [hget]

theorem writeAt?_eq (c : Entries α) (key : Key) (default w : α) :
    writeAt? c key default w = some ((get? c key).getD default, insert c key w) := by
  rcases position?_cases c key with
    ⟨front, v, back, rfl, hfront, hget, hposition⟩ | ⟨hnew, hget, hposition⟩
  · rw [writeAt?, hposition, hget, insert_append _ _ _ _ hfront, insert, if_pos rfl]
    exact replaceAt?_length front back key v w
  · rw [writeAt?, hposition, hget, insert_of_not_mem c key w hnew]
    -- The new entry comes after all others.
    have hlast : (c ++ [(key, default)]).length - 1 = c.length := by simp
    dsimp only
    rw [hlast]
    exact replaceAt?_length c [] key default w

/-- The map of these pairs, inserted one after the other. -/
def collect? (pairs : List (Key × α)) : Option (Entries α) :=
  pairs.foldlM (fun c e => (insertAt? c e.1 e.2).map Prod.snd) []

theorem collect?_eq (pairs : List (Key × α)) : collect? pairs = some (collect pairs) := by
  simp only [collect?, insertAt?_eq, Option.map_some]
  exact List.foldlM_pure

/-! ## Sequences -/

/-- Adds a value as the last entry, under the next index, which it also gives. -/
def push? (c : Entries α) (v : α) : Option (Int64 × Entries α) :=
  (nextIndex? c).map fun i => (i, c ++ [(.index i, v)])

/-- The sequence of these values, pushed one after the other. -/
def ofValues? (vs : List α) : Option (Entries α) :=
  vs.foldlM (fun c v => (push? c v).map Prod.snd) []

/-- Numbers the index keys in entry order. The counter is moved on after each of them. -/
def renumberFrom? : Int64 → Entries α → Option (Entries α)
  | _, [] => some []
  | n, (.index _, v) :: c =>
    (Decimal.int64? (n.toInt + 1)).bind fun next =>
      (renumberFrom? next c).map ((.index n, v) :: ·)
  | n, (.name s, v) :: c => (renumberFrom? n c).map ((.name s, v) :: ·)

/-- Values under the keys -1 - `n`, -2 - `n`, …, which are about to be replaced. -/
def placeholders? : Nat → List α → Option (Entries α)
  | _, [] => some []
  | n, v :: vs =>
    (Decimal.int64? (-1 - (n : Int))).bind fun i =>
      (placeholders? (n + 1) vs).map ((.index i, v) :: ·)

/-- Puts values in front, in order, and renumbers. -/
def prepend? (c : Entries α) (vs : List α) : Option (Entries α) :=
  (placeholders? 0 vs).bind fun front => renumberFrom? 0 (front ++ c)

theorem push?_eq (c : Entries α) (v : α) (h : c.length < 2 ^ 63) :
    push? c v = some (nextIndex c, push c v) := by
  rw [push?, nextIndex?_eq c h, Option.map_some, push]

/-- Pushing one value after the other has room for all if there is room for the last one. -/
theorem foldlM_push? (c : Entries α) (vs : List α) (h : c.length + vs.length ≤ 2 ^ 63) :
    vs.foldlM (fun c v => (push? c v).map Prod.snd) c = some (vs.foldl push c) := by
  induction vs generalizing c with
  | nil => rfl
  | cons v vs ih =>
      rw [List.length_cons] at h
      have hrest := ih (push c v) (by rw [length_push]; omega)
      rw [List.foldlM_cons, push?_eq c v (by omega)]
      exact hrest

theorem ofValues?_eq (vs : List α) (h : vs.length ≤ 2 ^ 63) :
    ofValues? vs = some (ofValues vs) := by
  rw [ofValues?, foldlM_push? [] vs (by rw [List.length_nil]; omega), foldl_push_nil vs h]

/-- The counter stays in range, since it counts entries. -/
theorem renumberFrom?_eq (n : Nat) (c : Entries α) (h : n + c.length < 2 ^ 63) :
    renumberFrom? (Int64.ofNat n) c = some (renumberFrom n c) := by
  induction c generalizing n with
  | nil => rfl
  | cons e c ih =>
      rcases e with ⟨key, v⟩
      rw [List.length_cons] at h
      cases key with
      | index i =>
          -- This entry is counted, too, so there is a next number.
          have hnext : Decimal.int64? ((Int64.ofNat n).toInt + 1) = some (Int64.ofNat (n + 1)) := by
            rw [Int64.toInt_ofNat_of_lt (by omega)]
            exact int64?_ofNat (n + 1) (by omega)
          rw [renumberFrom?, hnext, Option.bind_some, ih (n + 1) (by omega), Option.map_some,
            renumberFrom]
      | name s => rw [renumberFrom?, ih n (by omega), Option.map_some, renumberFrom]

theorem exists_placeholders (n : Nat) (vs : List α) (h : n + vs.length ≤ 2 ^ 63) :
    ∃ front, placeholders? n vs = some front ∧ front.slots = vs.map fun v => (none, v) := by
  induction vs generalizing n with
  | nil => exact ⟨[], rfl, rfl⟩
  | cons v vs ih =>
      rw [List.length_cons] at h
      rcases ih (n + 1) (by omega) with ⟨front, hfront, hslots⟩
      -- Downwards the keys reach as far as -2^63.
      have hkey : Decimal.int64? (-1 - (n : Int)) = some (Int64.ofInt (-1 - (n : Int))) := by
        rw [Decimal.int64?_eq_some_iff, Int64.toInt_ofInt_of_le (by omega) (by omega)]
      refine ⟨(.index (Int64.ofInt (-1 - (n : Int))), v) :: front, ?_, ?_⟩
      · rw [placeholders?, hkey, Option.bind_some, hfront, Option.map_some]
      · exact congrArg ((none, v) :: ·) hslots

/-- The keys of the values in front do not matter, since renumbering does not see them. -/
theorem prepend?_eq (c : Entries α) (vs : List α) (h : vs.length + c.length < 2 ^ 63) :
    prepend? c vs = some (prepend c vs) := by
  rcases exists_placeholders 0 vs (by omega) with ⟨front, hfront, hslots⟩
  have hlength : front.length = vs.length := by
    simpa [slots] using congrArg List.length hslots
  have hsame : renumber (front ++ c) = renumber (ofValues vs ++ c) :=
    renumber_congr _ _ (by rw [slots_append, hslots, slots_append, slots_ofValues])
  rw [prepend?, hfront, Option.bind_some, prepend, ← hsame]
  exact renumberFrom?_eq 0 _ (by rw [List.length_append]; omega)

end Entries

end DocTree
