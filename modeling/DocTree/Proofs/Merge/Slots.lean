import Mathlib
import DocTree.Entries

/-!
# Slots

Entries that are numbered 0, 1, 2, … carry no information in their indices: the
place of an entry says all there is to say. A *slot* is an entry without it, a
value that either has a name or has none, and `number` puts the indices back.

The operations that a merge is made of are easier to follow on slots. Pushing adds
a slot without a name, adding under a new name adds a slot with it, and overwriting
changes the value in one slot. On entries the first of these has to find the next
index. `nextIndex_number` does that once: it is the number of slots without a name,
as long as that number is an index at all.

## Main definitions

* `Key.name?`: the name of a key that is one.
* `Slots`, `Entries.slots`: entries without their indices.
* `Slots.number`: the entries with these slots, numbered from some index on.
* `Slots.find?`: the value of the first slot with a name.
* `Slots.modify`: a change to the slot with a name.
* `Slots.names`, `Slots.unnamed`: the names, and how many slots have none.

## Theorems

* `number_slots`: numbering the slots of entries is renumbering.
* `slots_number`: the slots of numbered entries are those that were numbered.
* `find?_slots`: names are found in the slots as they are in the entries.
* `nodup_names_slots`: distinct keys make for distinct names.
* `push_number`: pushing onto numbered entries adds a slot.
* `overwrite_number`: overwriting in numbered entries changes one slot.
* `renumber_congr`, `renumber_tail_renumber`: renumbering does not see the indices.
* `renumber_of_slots`: entries without names become a sequence.
-/

namespace DocTree

namespace Key

/-- The name of a key that is not an index. -/
def name? : Key → Option String
  | index _ => none
  | name s => some s

end Key

/-- Values, some of them with a name, in order. -/
abbrev Slots (α : Type) := List (Option String × α)

variable {α : Type}

namespace Entries

/-- The entries with their indices left out. -/
def slots (c : Entries α) : Slots α :=
  c.map fun e => (e.1.name?, e.2)

end Entries

namespace Slots

/-- Gives the slots without a name the indices from `n` on. -/
def number : Nat → Slots α → Entries α
  | _, [] => []
  | n, (none, v) :: s => (.index (Int64.ofNat n), v) :: number (n + 1) s
  | n, (some t, v) :: s => (.name t, v) :: number n s

/-- The value of the first slot with this name. -/
def find? : Slots α → String → Option α
  | [], _ => none
  | (name, v) :: s, t => if name = some t then some v else find? s t

/-- A slot with its value changed, if it has this name. -/
def modify (t : String) (f : α → α) (e : Option String × α) : Option String × α :=
  if e.1 = some t then (e.1, f e.2) else e

/-- The names in order. -/
def names (s : Slots α) : List String :=
  s.filterMap Prod.fst

/-- How many slots have no name. -/
def unnamed (s : Slots α) : Nat :=
  s.countP fun e => e.1.isNone

/-! ## Names -/

theorem find?_append (s u : Slots α) (t : String) :
    find? (s ++ u) t = (find? s t).or (find? u t) := by
  induction s with
  | nil => rfl
  | cons e s ih =>
      by_cases he : e.1 = some t
      · simp only [List.cons_append, find?, if_pos he, Option.some_or]
      · simp only [List.cons_append, find?, if_neg he, ih]

theorem find?_eq_none_iff (s : Slots α) (t : String) : find? s t = none ↔ t ∉ names s := by
  induction s with
  | nil => simp [find?, names]
  | cons e s ih =>
      rcases e with ⟨name, v⟩
      cases name with
      | none => simpa [find?, names] using ih
      | some r =>
          by_cases hr : r = t
          · simp [find?, names, hr]
          · have hr' : t ≠ r := fun h => hr h.symm
            simpa [find?, names, hr, hr'] using ih

theorem mem_names_of_mem (s : Slots α) (t : String) (v : α) (h : (some t, v) ∈ s) :
    t ∈ names s :=
  List.mem_filterMap.mpr ⟨_, h, rfl⟩

theorem mem_names_of_find? (s : Slots α) (t : String) (v : α) (h : find? s t = some v) :
    t ∈ names s := by
  by_contra hnot
  rw [(find?_eq_none_iff s t).mpr hnot] at h
  exact absurd h (by simp)

theorem names_append (s u : Slots α) : names (s ++ u) = names s ++ names u :=
  List.filterMap_append

theorem unnamed_cons_none (v : α) (s : Slots α) : unnamed ((none, v) :: s) = unnamed s + 1 :=
  List.countP_cons_of_pos rfl

theorem unnamed_cons_some (t : String) (v : α) (s : Slots α) :
    unnamed ((some t, v) :: s) = unnamed s :=
  List.countP_cons_of_neg (by simp)

theorem unnamed_append (s u : Slots α) : unnamed (s ++ u) = unnamed s + unnamed u :=
  List.countP_append

theorem unnamed_map_none (vs : List α) : unnamed (vs.map fun v => (none, v)) = vs.length := by
  simp [unnamed, List.countP_map]

/-! ## Numbering -/

theorem slots_number (n : Nat) (s : Slots α) : (number n s).slots = s := by
  induction s generalizing n with
  | nil => rfl
  | cons e s ih =>
      rcases e with ⟨name, v⟩
      cases name with
      | none => exact congrArg ((none, v) :: ·) (ih (n + 1))
      | some t => exact congrArg ((some t, v) :: ·) (ih n)

theorem number_slots (n : Nat) (c : Entries α) : number n c.slots = c.renumberFrom n := by
  -- Induction on the entries, with the number that the next index becomes.
  induction c generalizing n with
  | nil => rfl
  | cons e c ih =>
      rcases e with ⟨key, v⟩
      cases key with
      | index i => exact congrArg ((.index (Int64.ofNat n), v) :: ·) (ih (n + 1))
      | name t => exact congrArg ((.name t, v) :: ·) (ih n)

theorem number_append (n : Nat) (s u : Slots α) :
    number n (s ++ u) = number n s ++ number (n + unnamed s) u := by
  induction s generalizing n with
  | nil => rfl
  | cons e s ih =>
      rcases e with ⟨name, v⟩
      cases name with
      | none =>
          -- The slot takes an index from those behind it.
          rw [List.cons_append, number, ih, number, unnamed_cons_none, List.cons_append,
            show n + 1 + unnamed s = n + (unnamed s + 1) by omega]
      | some t => rw [List.cons_append, number, ih, number, unnamed_cons_some, List.cons_append]

theorem find?_slots (c : Entries α) (t : String) : find? c.slots t = c.get? (.name t) := by
  induction c with
  | nil => rfl
  | cons e c ih =>
      rcases e with ⟨key, v⟩
      cases key with
      | index i => simpa [Entries.slots, find?, Entries.get?, Key.name?] using ih
      | name r =>
          by_cases hr : r = t
          · simp [Entries.slots, find?, Entries.get?, Key.name?, hr]
          · simpa [Entries.slots, find?, Entries.get?, Key.name?, hr] using ih

theorem get?_number (n : Nat) (s : Slots α) (t : String) :
    (number n s).get? (.name t) = find? s t := by
  rw [← find?_slots, slots_number]

theorem nodup_names_slots (c : Entries α) (h : c.Distinct) : (names c.slots).Nodup := by
  have hnames : names c.slots = (Entries.keys c).filterMap Key.name? := by
    simp only [names, Entries.slots, Entries.keys, List.filterMap_map]
    rfl
  rw [hnames]
  -- Two keys with the same name are the same key.
  refine h.filterMap fun k l t hk hl => ?_
  cases k with
  | index i => exact absurd hk (by simp [Key.name?])
  | name r =>
      cases l with
      | index i => exact absurd hl (by simp [Key.name?])
      | name q =>
          simp only [Key.name?, Option.mem_some_iff] at hk hl
          rw [hk, hl]

/-! ## Writing to numbered entries -/

theorem indices_number (n : Nat) (s : Slots α) :
    (number n s).indices
      = (List.range' n (unnamed s)).map fun i => (Int64.ofNat i).toInt := by
  -- Induction on the slots. Those without a name take the numbers in turn.
  induction s generalizing n with
  | nil => rfl
  | cons e s ih =>
      rcases e with ⟨name, v⟩
      cases name with
      | none =>
          rw [unnamed_cons_none, List.range'_succ, List.map_cons, ← ih]
          rfl
      | some t =>
          rw [unnamed_cons_some, ← ih]
          rfl

/-- If the indices are 0, 1, 2, … in order, the next one is their number. The bound is the number
    of indices from 0 on, so it holds whenever one of them is left. -/
theorem nextIndex_of_indices (c : Entries α) (k : Nat)
    (hc : c.indices = (List.range' 0 k).map fun i => (Int64.ofNat i).toInt) (hk : k < 2 ^ 63) :
    c.nextIndex = Int64.ofNat k := by
  rw [Entries.nextIndex, hc]
  cases k with
  | zero => rfl
  | succ m =>
      -- The indices so far are 0 to m, none of them reduced.
      have hmax : ((List.range' 0 (m + 1)).map fun i => (Int64.ofNat i).toInt).max?
          = some (m : Int) := by
        refine List.max?_eq_some_iff.mpr ⟨?_, fun j hj => ?_⟩
        · refine List.mem_map.mpr ⟨m, by simp, ?_⟩
          exact Int64.toInt_ofNat_of_lt (by omega)
        · rcases List.mem_map.mp hj with ⟨i, hi, rfl⟩
          have hi' : i < m + 1 := by simpa using hi
          rw [Int64.toInt_ofNat_of_lt (by omega)]
          omega
      -- There is an index past the largest of them.
      have hnext : Decimal.int64? ((m : Int) + 1) = some (Int64.ofInt ((m : Int) + 1)) := by
        rw [Decimal.int64?, if_pos]
        have hmin : Int64.minValue.toInt = -2 ^ 63 := rfl
        have hmaxValue : Int64.maxValue.toInt = 2 ^ 63 - 1 := rfl
        omega
      simp only [hmax, hnext, Option.getD_some]
      exact Int64.ofInt_eq_ofNat

/-- The next index of numbered entries is the number of those that have an index. -/
theorem nextIndex_number (s : Slots α) (h : unnamed s < 2 ^ 63) :
    (number 0 s).nextIndex = Int64.ofNat (unnamed s) :=
  nextIndex_of_indices _ _ (indices_number 0 s) h

theorem push_number (s : Slots α) (v : α) (h : unnamed s < 2 ^ 63) :
    (number 0 s).push v = number 0 (s ++ [(none, v)]) := by
  rw [Entries.push, nextIndex_number s h, number_append, Nat.zero_add]
  rfl

theorem map_modify_of_find?_eq_none (s : Slots α) (t : String) (f : α → α)
    (h : find? s t = none) : s.map (modify t f) = s := by
  have hnames : t ∉ names s := (find?_eq_none_iff s t).mp h
  refine (List.map_congr_left fun e he => ?_).trans (List.map_id s)
  have hne : e.1 ≠ some t := fun h => hnames (mem_names_of_mem s t e.2 (by rwa [← h]))
  rw [modify, if_neg hne, id]

/-- Overwriting the value under a name changes the slot with that name, and as names are distinct,
    it changes no other. -/
theorem overwrite_number (n : Nat) (s : Slots α) (t : String) (f : α → α) (old : α)
    (hs : (names s).Nodup) (hold : find? s t = some old) :
    (number n s).overwrite (.name t) (f old) = number n (s.map (modify t f)) := by
  -- Induction on the slots, up to the one with the name.
  induction s generalizing n with
  | nil => exact absurd hold (by simp [find?])
  | cons e s ih =>
      rcases e with ⟨name, v⟩
      by_cases hname : name = some t
      · -- This is the slot, and no later one has the name.
        have hv : v = old := by simpa only [find?, if_pos hname, Option.some.injEq] using hold
        have hrest : find? s t = none := by
          rw [hname] at hs
          exact (find?_eq_none_iff s t).mpr (List.nodup_cons.mp hs).1
        rw [List.map_cons, map_modify_of_find?_eq_none s t f hrest]
        simp only [hname, hv, modify, number, Entries.overwrite, if_pos]
      · rw [find?, if_neg hname] at hold
        rw [List.map_cons, modify, if_neg hname]
        cases name with
        | none =>
            simp only [number, Entries.overwrite, reduceCtorEq, if_false]
            rw [ih (n + 1) hs hold]
        | some r =>
            have hr : Key.name r ≠ Key.name t := fun h => hname (congrArg some (Key.name.inj h))
            simp only [number, Entries.overwrite, if_neg hr]
            rw [ih n (List.nodup_cons.mp hs).2 hold]

end Slots

/-! ## Renumbering -/

namespace Entries

theorem slots_append (c d : Entries α) : (c ++ d).slots = c.slots ++ d.slots :=
  List.map_append

theorem length_indices (c : Entries α) : (indices c).length = Slots.unnamed c.slots := by
  induction c with
  | nil => rfl
  | cons e c ih =>
      rcases e with ⟨key, v⟩
      cases key with
      | index i => exact (congrArg (· + 1) ih).trans (Slots.unnamed_cons_none v (slots c)).symm
      | name t => exact ih.trans (Slots.unnamed_cons_some t v (slots c)).symm

theorem slots_renumber (c : Entries α) : (renumber c).slots = c.slots := by
  rw [renumber, ← Slots.number_slots, Slots.slots_number]

/-- Renumbering sees what the indices leave out. -/
theorem renumber_congr (c d : Entries α) (h : c.slots = d.slots) : renumber c = renumber d := by
  rw [renumber, ← Slots.number_slots, h, Slots.number_slots, renumber]

theorem slots_tail (c : Entries α) : slots c.tail = c.slots.tail :=
  List.map_tail

/-- It does not matter whether entries are renumbered before the first of them goes. -/
theorem renumber_tail_renumber (c : Entries α) :
    renumber (renumber c).tail = renumber c.tail :=
  renumber_congr _ _ (by rw [slots_tail, slots_renumber, slots_tail])

theorem number_unnamed (n : Nat) (vs : List α) :
    Slots.number n (vs.map fun v => (none, v)) = numberedFrom n vs := by
  induction vs generalizing n with
  | nil => rfl
  | cons v vs ih => exact congrArg ((Key.index (Int64.ofNat n), v) :: ·) (ih (n + 1))

theorem slots_ofValues (vs : List α) : (ofValues vs).slots = vs.map fun v => (none, v) := by
  rw [ofValues, ← number_unnamed, Slots.slots_number]

theorem names_unnamed (vs : List α) : Slots.names (vs.map fun v => (none, v)) = [] := by
  simp [Slots.names]

/-- Entries without names become the sequence of their values. -/
theorem renumber_of_slots (c : Entries α) (vs : List α)
    (h : c.slots = vs.map fun v => (none, v)) : renumber c = ofValues vs := by
  rw [renumber, ← Slots.number_slots, h, number_unnamed, ofValues]

end Entries

end DocTree
