import Mathlib
import DocTree.Value

/-!
# Nested Values

Induction and measures for values of any depth. Values and their entries are defined
by each other, and so is nearly everything about them; `Value.induction` proves a
property of values together with one of entries.

The *size* of a value counts all values in it. It is what a memory has to hold, and
so it bounds every index that an operation on the value can come up with.

A property of containers may hold *everywhere* in a value: of the value itself, if it is
a container, and of every container nested in it.

## Main definitions

* `Value.size`, `Value.entriesSize`: how many values there are at all depths.
* `Value.Everywhere`: a property of every container, at every depth.

## Theorems

* `induction`: a property of all values, and one of all entries.
* `forall_of_entries`: a property that a container has when its entries have it.
* `size_le_of_mem`: an entry is no larger than all entries together.
* `entriesSize_toEntries_le`: taking a value as entries does not make it larger.
* `distinct_of_mem`: an entry of entries that are distinct at every depth is so itself.
* `distinct_toEntries`: a value taken as entries is as distinct as it was.
* `everywhere_container_iff`: a property everywhere in a container, one level opened.
* `distinct_iff_everywhere`: distinct keys at every depth, as a property everywhere.
-/

namespace DocTree

namespace Value

mutual

/-- The number of values at all depths of a value, with the value itself. -/
def size : Value → Nat
  | container c => entriesSize c + 1
  | _ => 1

/-- The number of values at all depths of entries. -/
def entriesSize : List (Key × Value) → Nat
  | [] => 0
  | (_, v) :: c => v.size + entriesSize c

end

/-- A property of values and one of entries hold throughout if each is kept by what makes the
    other. -/
theorem induction {P : Value → Prop} {Q : Entries Value → Prop}
    (scalar : ∀ v, v.isContainer = false → P v) (nested : ∀ c, Q c → P (container c))
    (nil : Q []) (cons : ∀ key v c, P v → Q c → Q ((key, v) :: c)) :
    (∀ v, P v) ∧ ∀ c, Q c :=
  ⟨@Value.rec P Q (fun e => P e.2) (scalar null rfl) (fun b => scalar (bool b) rfl)
      (fun i => scalar (int i) rfl) (fun x => scalar (float x) rfl)
      (fun s => scalar (string s) rfl) nested nil (fun e c => cons e.1 e.2 c) (fun _ _ h => h),
    @Value.rec_1 P Q (fun e => P e.2) (scalar null rfl) (fun b => scalar (bool b) rfl)
      (fun i => scalar (int i) rfl) (fun x => scalar (float x) rfl)
      (fun s => scalar (string s) rfl) nested nil (fun e c => cons e.1 e.2 c) (fun _ _ h => h)⟩

/-- A property holds of all values if scalars have it and a container has it whenever the values
    of its entries do. -/
theorem forall_of_entries {P : Value → Prop} (scalar : ∀ v, v.isContainer = false → P v)
    (nested : ∀ c : Entries Value, (∀ e ∈ c, P e.2) → P (container c)) (v : Value) : P v := by
  have hnil : ∀ e ∈ ([] : Entries Value), P e.2 := fun e he => absurd he List.not_mem_nil
  -- The entries have the property one by one.
  refine (induction scalar nested hnil ?_).1 v
  intro key u c hu hc e he
  rcases List.mem_cons.mp he with rfl | he
  · exact hu
  · exact hc e he

/-- What is in an entry is counted with the entries. -/
theorem size_le_of_mem (c : Entries Value) (e : Key × Value) (h : e ∈ c) :
    e.2.size ≤ entriesSize c := by
  induction c with
  | nil => exact absurd h List.not_mem_nil
  | cons d c ih =>
      rcases d with ⟨key, v⟩
      simp only [entriesSize]
      -- The entry is the first one, or it is behind it.
      rcases List.mem_cons.mp h with rfl | h
      · exact Nat.le_add_right _ _
      · exact Nat.le_trans (ih h) (Nat.le_add_left _ _)

/-- The same for a value that some entry has. -/
theorem size_le_of_mem_values (c : Entries Value) (v : Value) (h : v ∈ Entries.values c) :
    v.size ≤ entriesSize c := by
  rcases List.mem_map.mp h with ⟨e, he, rfl⟩
  exact size_le_of_mem c e he

/-- Keys that are distinct at every depth are so in each entry. -/
theorem distinct_of_mem (c : Entries Value) (e : Key × Value) (hc : EntriesDistinct c)
    (h : e ∈ c) : e.2.Distinct := by
  induction c with
  | nil => exact absurd h List.not_mem_nil
  | cons d c ih =>
      rcases d with ⟨key, v⟩
      simp only [EntriesDistinct] at hc
      rcases List.mem_cons.mp h with rfl | h
      · exact hc.1
      · exact ih hc.2 h

/-- Each entry counts for one at least. -/
theorem length_le_entriesSize (c : Entries Value) : c.length ≤ entriesSize c := by
  induction c with
  | nil => exact Nat.le_refl 0
  | cons e c ih =>
      rcases e with ⟨key, v⟩
      -- No value is of size 0.
      have hpos : 0 < v.size := by cases v <;> simp [size]
      simp only [List.length_cons, entriesSize]
      omega

/-- A scalar becomes the one entry, and a container loses the count of itself. -/
theorem entriesSize_toEntries_le (v : Value) : entriesSize v.toEntries ≤ v.size := by
  cases v with
  | container c => exact Nat.le_succ _
  | _ => exact Nat.le_refl 1

/-- A scalar becomes a single entry, so its keys are distinct. -/
theorem distinct_toEntries (v : Value) (h : v.Distinct) :
    Entries.Distinct v.toEntries ∧ EntriesDistinct v.toEntries := by
  cases v with
  | container c => exact h
  | _ => exact ⟨List.nodup_singleton _, trivial, trivial⟩

/-! ## Properties of every container -/

mutual

/-- Every container, at every depth, has the property. -/
def Everywhere (P : Entries Value → Prop) : Value → Prop
  | container c => P c ∧ EntriesEverywhere P c
  | _ => True

/-- Every container in the values of the entries, at every depth, has the property. -/
def EntriesEverywhere (P : Entries Value → Prop) : List (Key × Value) → Prop
  | [] => True
  | (_, v) :: c => v.Everywhere P ∧ EntriesEverywhere P c

end

variable (P : Entries Value → Prop)

/-- A property everywhere in entries, as one of their values. -/
theorem entriesEverywhere_iff (c : Entries Value) :
    EntriesEverywhere P c ↔ ∀ v ∈ Entries.values c, v.Everywhere P := by
  induction c with
  | nil => simp [EntriesEverywhere, Entries.values]
  | cons e c ih =>
      rcases e with ⟨key, v⟩
      simp only [EntriesEverywhere, ih, Entries.values, List.map_cons, List.forall_mem_cons]

/-- A property everywhere in a container, one level opened. -/
theorem everywhere_container_iff (c : Entries Value) :
    (container c).Everywhere P ↔ P c ∧ ∀ v ∈ Entries.values c, v.Everywhere P := by
  rw [Everywhere, entriesEverywhere_iff]

/-- A scalar has no container in it. -/
theorem everywhere_of_scalar (v : Value) (h : v.isContainer = false) : v.Everywhere P := by
  cases v with
  | container c => exact absurd h (by simp [isContainer])
  | _ => trivial

/-- Distinct keys at every depth are a property of every container. -/
theorem distinct_iff_everywhere (v : Value) : v.Distinct ↔ v.Everywhere Entries.Distinct := by
  -- The two are defined by the same recursion, on values and on entries.
  refine (induction (P := fun v => v.Distinct ↔ v.Everywhere Entries.Distinct)
    (Q := fun c => EntriesDistinct c ↔ EntriesEverywhere Entries.Distinct c)
    (fun v hv => ?_) (fun c hc => ?_) Iff.rfl fun key v c hv hc => ?_).1 v
  · cases v with
    | container c => exact absurd hv (by simp [isContainer])
    | _ => exact Iff.rfl
  · simp only [Distinct, Everywhere, hc]
  · simp only [EntriesDistinct, EntriesEverywhere, hv, hc]

end Value

end DocTree
