import Mathlib
import DocTree.Proofs.WellKeyed

/-!
# Normal Forms

What is left of a value when it has gone through a text. Keys come back as their texts
denote, so a name that spells an integer becomes an index and may meet one that is there
already. Floats come back as far as the format has a text for them.

A normal form is made in two steps that do not depend on each other: floats are kept,
changed or lost one by one, and keys are read again from their texts, where of equal keys
the first gives the place and the last gives the value. A value keeps its keys exactly if it
is well-keyed.

## Main definitions

* `Value.mapFloats`: floats changed or lost, everywhere.
* `Value.rekey`: keys as their texts denote, everywhere.
* `Value.normal`: both.
* `Value.floats`: the floats in a value.
* `Entries.PlainNames`: no name spells an integer.

## Theorems

* `rekey_mapFloats`: the two steps do not depend on each other.
* `wellKeyed_rekey`, `rekey_of_wellKeyed`: the values that keep their keys.
* `normal_normal`: a normal form stays as it is.
* `normal_eq_mapFloats_iff`: which values come back.
* `depth_normal_le`, `mem_floats_of_mem_normal`: what a normal form can hold.
-/

namespace DocTree

namespace Entries

variable {α β : Type}

/-- Entries with each key and each value mapped. -/
def mapBoth (f : Key → Key) (g : α → β) (c : Entries α) : List (Key × β) :=
  c.map (Prod.map f g)

theorem keys_mapBoth (f : Key → Key) (g : α → β) (c : Entries α) :
    keys (mapBoth f g c) = (keys c).map f := by
  rw [keys, mapBoth, List.map_map, keys, List.map_map]
  rfl

theorem insert_mapBoth (g : α → β) (c : Entries α) (key : Key) (w : α) :
    insert (mapBoth id g c) key (g w) = mapBoth id g (insert c key w) := by
  induction c with
  | nil => rfl
  | cons e c ih =>
      rcases e with ⟨k, v⟩
      simp only [mapBoth] at ih
      by_cases hk : k = key
      · simp [mapBoth, insert, hk]
      · simp [mapBoth, insert, hk, ih]

theorem collect_mapBoth (g : α → β) (pairs : List (Key × α)) :
    collect (mapBoth id g pairs) = mapBoth id g (collect pairs) := by
  -- For the induction, the fold starts from entries that are mapped already.
  have hfold : ∀ c : Entries α,
      (mapBoth id g pairs).foldl (fun c e => insert c e.1 e.2) (mapBoth id g c)
        = mapBoth id g (pairs.foldl (fun c e => insert c e.1 e.2) c) := by
    induction pairs with
    | nil => exact fun c => rfl
    | cons e pairs ih =>
        intro c
        have hinsert := insert_mapBoth g c e.1 e.2
        have hstep := ih (insert c e.1 e.2)
        rw [← hinsert] at hstep
        exact hstep
  exact hfold []

/-- Pairs with distinct keys are the entries of their map already. -/
theorem collect_of_distinct (c : Entries α) (h : c.Distinct) : collect c = c := by
  -- Each pair comes to a map that holds those before it, so its key is new.
  have hfold : ∀ d : Entries α, Distinct (d ++ c) →
      c.foldl (fun c e => insert c e.1 e.2) d = d ++ c := by
    clear h
    induction c with
    | nil => exact fun d _ => (List.append_nil d).symm
    | cons e c ih =>
        intro d hd
        have hnew : e.1 ∉ keys d := by
          rw [Distinct, keys_append, List.nodup_append] at hd
          exact fun hmem => hd.2.2 _ hmem e.1 (by simp [keys]) rfl
        rw [List.foldl_cons, insert_of_not_mem d e.1 e.2 hnew,
          ih (d ++ [(e.1, e.2)]) (by rwa [List.append_assoc]), List.append_assoc]
        rfl
  exact hfold [] h

/-- No name spells an integer of 64 bits. -/
def PlainNames (c : Entries α) : Prop :=
  ∀ s, Key.name s ∈ keys c → ∀ i, s ≠ (Key.index i).text

theorem lawfulKeys_iff (c : Entries α) : c.LawfulKeys ↔ c.Distinct ∧ c.PlainNames := by
  -- Indices are canonical anyway, so only the names matter.
  refine and_congr_right fun _ => ⟨fun h s hs => ?_, fun h key hkey => ?_⟩
  · exact (Key.canonical_name_iff s).mp (h _ hs)
  · cases key with
    | index i => exact Key.canonical_index i
    | name s => exact (Key.canonical_name_iff s).mpr (h s hkey)

end Entries

namespace Value

/-! ## Floats -/

mutual

/-- The value with floats changed, and null in the place of those that are lost. -/
def mapFloats (g : Binary64 → Option Binary64) : Value → Value
  | float x =>
    match g x with
    | some y => float y
    | none => null
  | container c => container (mapFloatsEntries g c)
  | v => v

def mapFloatsEntries (g : Binary64 → Option Binary64) : List (Key × Value) → List (Key × Value)
  | [] => []
  | (key, v) :: c => (key, mapFloats g v) :: mapFloatsEntries g c

end

mutual

/-- The floats in a value. -/
def floats : Value → List Binary64
  | float x => [x]
  | container c => entriesFloats c
  | _ => []

def entriesFloats : List (Key × Value) → List Binary64
  | [] => []
  | (_, v) :: c => floats v ++ entriesFloats c

end

theorem mapFloatsEntries_eq (g : Binary64 → Option Binary64) (c : Entries Value) :
    mapFloatsEntries g c = Entries.mapBoth id (mapFloats g) c := by
  induction c with
  | nil => rfl
  | cons e c ih => exact congrArg (_ :: ·) ih

theorem mapFloats_float (g : Binary64 → Option Binary64) (x : Binary64) :
    mapFloats g (float x) = ((g x).map float).getD null := by
  rw [mapFloats]
  cases g x <;> rfl

theorem keys_mapFloatsEntries (g : Binary64 → Option Binary64) (c : Entries Value) :
    Entries.keys (mapFloatsEntries g c) = Entries.keys c := by
  rw [mapFloatsEntries_eq, Entries.keys_mapBoth, List.map_id]

theorem isContainer_mapFloats (g : Binary64 → Option Binary64) (v : Value) :
    (v.mapFloats g).isContainer = v.isContainer := by
  cases v with
  | float x => cases hx : g x <;> simp [mapFloats, hx, isContainer]
  | _ => rfl

theorem mem_entriesFloats_iff (c : Entries Value) (x : Binary64) :
    x ∈ entriesFloats c ↔ ∃ v ∈ Entries.values c, x ∈ floats v := by
  induction c with
  | nil => simp [entriesFloats, Entries.values]
  | cons e c ih =>
      rcases e with ⟨key, v⟩
      rw [entriesFloats, List.mem_append, ih]
      simp [Entries.values]

theorem entriesDepth_le_iff (c : Entries Value) (n : Nat) :
    entriesDepth c ≤ n ↔ ∀ v ∈ Entries.values c, v.depth ≤ n := by
  induction c with
  | nil => simp [entriesDepth, Entries.values]
  | cons e c ih =>
      rcases e with ⟨key, v⟩
      rw [entriesDepth, Nat.max_le, ih]
      simp [Entries.values]

/-- Nothing changes if every float is kept as it is. -/
theorem mapFloats_some (v : Value) : v.mapFloats some = v := by
  refine (induction (P := fun v => v.mapFloats some = v)
    (Q := fun c => mapFloatsEntries some c = c)
    (fun v hv => ?_) (fun c hc => congrArg container hc) rfl fun key v c hv hc => ?_).1 v
  · cases v with
    | container c => exact absurd hv (by simp [isContainer])
    | _ => rfl
  · rw [mapFloatsEntries, hv, hc]

/-- Two changes of floats, one after the other. -/
theorem mapFloats_mapFloats (g h : Binary64 → Option Binary64) (v : Value) :
    (v.mapFloats g).mapFloats h = v.mapFloats fun x => (g x).bind h := by
  refine (induction (P := fun v => (v.mapFloats g).mapFloats h = v.mapFloats fun x => (g x).bind h)
    (Q := fun c => mapFloatsEntries h (mapFloatsEntries g c)
      = mapFloatsEntries (fun x => (g x).bind h) c)
    (fun v hv => ?_) (fun c hc => congrArg container hc) rfl fun key v c hv hc => ?_).1 v
  · -- A float that is lost first stays lost.
    cases v with
    | float x => cases hx : g x <;> simp [mapFloats, hx]
    | container c => exact absurd hv (by simp [isContainer])
    | _ => rfl
  · simp only [mapFloatsEntries, hv, hc]

/-- Floats are changed alike exactly if each one is. -/
theorem mapFloats_eq_mapFloats_iff (g h : Binary64 → Option Binary64) (v : Value) :
    v.mapFloats g = v.mapFloats h ↔ ∀ x ∈ v.floats, g x = h x := by
  refine (induction
    (P := fun v => v.mapFloats g = v.mapFloats h ↔ ∀ x ∈ v.floats, g x = h x)
    (Q := fun c => mapFloatsEntries g c = mapFloatsEntries h c
      ↔ ∀ x ∈ entriesFloats c, g x = h x)
    (fun v hv => ?_) (fun c hc => ?_) ?_ fun key v c hv hc => ?_).1 v
  · cases v with
    | float x =>
        simp only [mapFloats_float, floats, List.forall_mem_singleton]
        cases g x <;> cases h x <;> simp
    | container c => exact absurd hv (by simp [isContainer])
    | _ => simp [mapFloats, floats]
  · simpa only [mapFloats, container.injEq, floats] using hc
  · simp [mapFloatsEntries, entriesFloats]
  · simp only [mapFloatsEntries, entriesFloats, List.cons.injEq, Prod.mk.injEq, true_and, hv, hc,
      List.forall_mem_append]

theorem depth_mapFloats (g : Binary64 → Option Binary64) (v : Value) :
    (v.mapFloats g).depth = v.depth := by
  refine (induction (P := fun v => (v.mapFloats g).depth = v.depth)
    (Q := fun c => entriesDepth (mapFloatsEntries g c) = entriesDepth c)
    (fun v hv => ?_) (fun c hc => congrArg (· + 1) hc) rfl fun key v c hv hc => ?_).1 v
  · cases v with
    | float x => cases hx : g x <;> simp [mapFloats, hx, depth]
    | container c => exact absurd hv (by simp [isContainer])
    | _ => rfl
  · rw [mapFloatsEntries, entriesDepth, entriesDepth, hv, hc]

theorem mem_floats_of_mem_mapFloats (g : Binary64 → Option Binary64) (v : Value) (y : Binary64)
    (h : y ∈ (v.mapFloats g).floats) : ∃ x ∈ v.floats, g x = some y := by
  refine (induction
    (P := fun v => y ∈ (v.mapFloats g).floats → ∃ x ∈ v.floats, g x = some y)
    (Q := fun c => y ∈ entriesFloats (mapFloatsEntries g c) →
      ∃ x ∈ entriesFloats c, g x = some y)
    (fun v hv hy => ?_) (fun c hc hy => hc hy) (fun hy => ?_) fun key v c hv hc hy => ?_).1 v h
  · cases v with
    | float x =>
        refine ⟨x, List.mem_singleton_self x, ?_⟩
        cases hx : g x with
        | none => exact absurd hy (by simp [mapFloats, hx, floats])
        | some z =>
            simp only [mapFloats, hx, floats, List.mem_singleton] at hy
            rw [hy]
    | container c => exact absurd hv (by simp [isContainer])
    | _ => exact absurd hy List.not_mem_nil
  · exact absurd hy List.not_mem_nil
  · rw [mapFloatsEntries, entriesFloats, List.mem_append] at hy
    rcases hy with hy | hy
    · rcases hv hy with ⟨x, hx, hgx⟩
      exact ⟨x, List.mem_append_left _ hx, hgx⟩
    · rcases hc hy with ⟨x, hx, hgx⟩
      exact ⟨x, List.mem_append_right _ hx, hgx⟩

/-! ## Keys -/

mutual

/-- The value with every key as its text denotes. A key that occurs again then keeps its first
    place and its last value. -/
def rekey : Value → Value
  | container c => container (Entries.collect (rekeyEntries c))
  | v => v

def rekeyEntries : List (Key × Value) → List (Key × Value)
  | [] => []
  | (key, v) :: c => (Key.parse key.text, rekey v) :: rekeyEntries c

end

theorem rekey_of_scalar (v : Value) (h : v.isContainer = false) : v.rekey = v := by
  cases v with
  | container c => exact absurd h (by simp [isContainer])
  | _ => rfl

theorem rekeyEntries_eq (c : Entries Value) :
    rekeyEntries c = Entries.mapBoth (fun key => Key.parse key.text) rekey c := by
  induction c with
  | nil => rfl
  | cons e c ih => exact congrArg (_ :: ·) ih

/-- The values of entries whose keys are read again come from entries. -/
theorem exists_of_mem_rekeyEntries (c : Entries Value) (u : Value)
    (h : u ∈ Entries.values (Entries.collect (rekeyEntries c))) : ∃ e ∈ c, e.2.rekey = u := by
  rcases List.mem_map.mp h with ⟨e, he, rfl⟩
  have hpair := Entries.mem_of_mem_collect _ e he
  rw [rekeyEntries_eq] at hpair
  rcases List.mem_map.mp hpair with ⟨e', he', rfl⟩
  exact ⟨e', he', rfl⟩

/-- Changing floats and reading keys do not depend on each other. -/
theorem rekey_mapFloats (g : Binary64 → Option Binary64) (v : Value) :
    (v.mapFloats g).rekey = v.rekey.mapFloats g := by
  refine (induction (P := fun v => (v.mapFloats g).rekey = v.rekey.mapFloats g)
    (Q := fun c => rekeyEntries (mapFloatsEntries g c) = mapFloatsEntries g (rekeyEntries c))
    (fun v hv => ?_) (fun c hc => ?_) rfl fun key v c hv hc => ?_).1 v
  · -- A float has no keys, and it becomes no container.
    rw [rekey_of_scalar v hv, rekey_of_scalar _ ((isContainer_mapFloats g v).trans hv)]
  · rw [mapFloats, rekey, hc, rekey, mapFloats, mapFloatsEntries_eq, mapFloatsEntries_eq,
      Entries.collect_mapBoth]
  · rw [mapFloatsEntries, rekeyEntries, rekeyEntries, mapFloatsEntries, hv, hc]

theorem wellKeyed_rekey (v : Value) : v.rekey.WellKeyed := by
  refine forall_of_entries (P := fun v => v.rekey.WellKeyed) (fun v hv => ?_) (fun c hc => ?_) v
  · rw [rekey_of_scalar v hv]
    exact keyedBy_of_scalar v hv
  · -- Collecting makes keys distinct, and those that are collected are canonical.
    refine keyedBy_collect _ (fun e he => ?_) fun u hu => ?_
    · rw [rekeyEntries_eq] at he
      rcases List.mem_map.mp he with ⟨e', _, rfl⟩
      exact Key.canonical_parse _
    · rcases exists_of_mem_rekeyEntries c u hu with ⟨e, he, rfl⟩
      exact hc e he

/-- A well-keyed value keeps its keys. -/
theorem rekey_of_wellKeyed (v : Value) (h : v.WellKeyed) : v.rekey = v := by
  refine (induction (P := fun v => v.WellKeyed → v.rekey = v)
    (Q := fun c => (∀ key ∈ Entries.keys c, key.Canonical) →
      (∀ u ∈ Entries.values c, u.WellKeyed) → rekeyEntries c = c)
    (fun v hv _ => ?_) (fun c hc hkeyed => ?_) (fun _ _ => rfl)
    fun key v c hv hc hkeys hvalues => ?_).1 v h
  · exact rekey_of_scalar v hv
  · rw [wellKeyed_container_iff] at hkeyed
    rw [rekey, hc hkeyed.1.2 hkeyed.2, Entries.collect_of_distinct c hkeyed.1.1]
  · rw [Entries.keys, List.map_cons, List.forall_mem_cons] at hkeys
    rw [Entries.values, List.map_cons, List.forall_mem_cons] at hvalues
    rw [rekeyEntries, hv hvalues.1, hc hkeys.2 hvalues.2, hkeys.1]

theorem depth_rekey_le (v : Value) : v.rekey.depth ≤ v.depth := by
  refine forall_of_entries (P := fun v => v.rekey.depth ≤ v.depth)
    (fun v hv => ?_) (fun c hc => ?_) v
  · rw [rekey_of_scalar v hv]
  · rw [rekey, depth, depth, Nat.add_le_add_iff_right, entriesDepth_le_iff]
    -- What is collected are some of the entries, and these are no deeper.
    intro u hu
    rcases exists_of_mem_rekeyEntries c u hu with ⟨e, he, rfl⟩
    exact (hc e he).trans
      ((entriesDepth_le_iff c _).mp (Nat.le_refl _) e.2 (List.mem_map_of_mem he))

theorem mem_floats_of_mem_rekey (v : Value) (x : Binary64) (h : x ∈ v.rekey.floats) :
    x ∈ v.floats := by
  revert h
  refine forall_of_entries (P := fun v => x ∈ v.rekey.floats → x ∈ v.floats)
    (fun v hv => ?_) (fun c hc h => ?_) v
  · rw [rekey_of_scalar v hv]
    exact id
  · rw [rekey, floats, mem_entriesFloats_iff] at h
    rcases h with ⟨u, hu, hx⟩
    rcases exists_of_mem_rekeyEntries c u hu with ⟨e, he, rfl⟩
    rw [floats, mem_entriesFloats_iff]
    exact ⟨e.2, List.mem_map_of_mem he, hc e he hx⟩

/-! ## Well-keyed values -/

theorem everywhere_and_iff (P R : Entries Value → Prop) (v : Value) :
    v.Everywhere (fun c => P c ∧ R c) ↔ v.Everywhere P ∧ v.Everywhere R := by
  refine (induction
    (P := fun v => v.Everywhere (fun c => P c ∧ R c) ↔ v.Everywhere P ∧ v.Everywhere R)
    (Q := fun c => EntriesEverywhere (fun c => P c ∧ R c) c
      ↔ EntriesEverywhere P c ∧ EntriesEverywhere R c)
    (fun v hv => ?_) (fun c hc => ?_) ?_ fun key v c hv hc => ?_).1 v
  · simp only [everywhere_of_scalar _ v hv, and_self]
  · simp only [Everywhere, hc]
    tauto
  · simp [EntriesEverywhere]
  · simp only [EntriesEverywhere, hv, hc]
    tauto

theorem wellKeyed_iff (v : Value) :
    v.WellKeyed ↔ v.Distinct ∧ v.Everywhere Entries.PlainNames := by
  have hlawful : Entries.KeyedBy (α := Value) Key.Canonical = fun c => c.Distinct ∧ c.PlainNames :=
    funext fun c => propext (Entries.lawfulKeys_iff c)
  rw [WellKeyed, KeyedBy, hlawful, everywhere_and_iff, distinct_iff_everywhere]

/-- What depends on keys alone is the same for a value with other floats. -/
theorem everywhere_mapFloats_iff (P : Entries Value → Prop)
    (hP : ∀ c d : Entries Value, Entries.keys c = Entries.keys d → (P c ↔ P d))
    (g : Binary64 → Option Binary64) (v : Value) :
    (v.mapFloats g).Everywhere P ↔ v.Everywhere P := by
  refine (induction (P := fun v => (v.mapFloats g).Everywhere P ↔ v.Everywhere P)
    (Q := fun c => EntriesEverywhere P (mapFloatsEntries g c) ↔ EntriesEverywhere P c)
    (fun v hv => ?_) (fun c hc => ?_) Iff.rfl fun key v c hv hc => ?_).1 v
  · exact iff_of_true (everywhere_of_scalar P _ ((isContainer_mapFloats g v).trans hv))
      (everywhere_of_scalar P v hv)
  · exact and_congr (hP _ c (keys_mapFloatsEntries g c)) hc
  · exact and_congr hv hc

theorem wellKeyed_mapFloats_iff (g : Binary64 → Option Binary64) (v : Value) :
    (v.mapFloats g).WellKeyed ↔ v.WellKeyed := by
  refine everywhere_mapFloats_iff _ (fun c d hkeys => ?_) g v
  rw [Entries.KeyedBy, Entries.KeyedBy, Entries.Distinct, Entries.Distinct, hkeys]

theorem distinct_mapFloats_iff (g : Binary64 → Option Binary64) (v : Value) :
    (v.mapFloats g).Distinct ↔ v.Distinct := by
  rw [distinct_iff_everywhere, distinct_iff_everywhere]
  refine everywhere_mapFloats_iff _ (fun c d hkeys => ?_) g v
  rw [Entries.Distinct, Entries.Distinct, hkeys]

/-! ## Normal forms -/

/-- The value with floats changed, and with every key as its text denotes. -/
def normal (g : Binary64 → Option Binary64) (v : Value) : Value :=
  (v.mapFloats g).rekey

/-- A normal form stays as it is, if a float that was kept is kept again. -/
theorem normal_normal (g : Binary64 → Option Binary64) (v : Value)
    (hg : ∀ x, (g x).bind g = g x) : (v.normal g).normal g = v.normal g := by
  have hagain : v.rekey.mapFloats (fun x => (g x).bind g) = v.rekey.mapFloats g :=
    (mapFloats_eq_mapFloats_iff _ _ _).mpr fun x _ => hg x
  calc (v.normal g).normal g = ((v.rekey.mapFloats g).mapFloats g).rekey := by
        rw [normal, normal, rekey_mapFloats g v]
    _ = (v.rekey.rekey).mapFloats g := by rw [mapFloats_mapFloats, hagain, rekey_mapFloats]
    _ = v.rekey.mapFloats g := by rw [rekey_of_wellKeyed _ (wellKeyed_rekey v)]
    _ = v.normal g := (rekey_mapFloats g v).symm

theorem mapFloats_normal (g h : Binary64 → Option Binary64) (v : Value) :
    (v.normal g).mapFloats h = v.normal fun x => (g x).bind h := by
  rw [normal, ← rekey_mapFloats, mapFloats_mapFloats, normal]

/-- A normal form differs from the value in nothing but floats exactly if no name spells an
    integer; and in which floats, one sees at each of them. -/
theorem normal_eq_mapFloats_iff (g h : Binary64 → Option Binary64) (v : Value)
    (hv : v.Distinct) :
    v.normal g = v.mapFloats h ↔ v.Everywhere Entries.PlainNames ∧ ∀ x ∈ v.floats, g x = h x := by
  have hplain : v.Everywhere Entries.PlainNames ↔ v.WellKeyed :=
    ((wellKeyed_iff v).trans (and_iff_right hv)).symm
  rw [hplain, ← mapFloats_eq_mapFloats_iff]
  constructor
  · intro heq
    -- A normal form is well-keyed, and floats have no part in that.
    have hkeyed : v.WellKeyed := by
      rw [← wellKeyed_mapFloats_iff h, ← heq]
      exact wellKeyed_rekey _
    rw [normal, rekey_of_wellKeyed _ ((wellKeyed_mapFloats_iff g v).mpr hkeyed)] at heq
    exact ⟨hkeyed, heq⟩
  · rintro ⟨hkeyed, heq⟩
    rw [normal, rekey_of_wellKeyed _ ((wellKeyed_mapFloats_iff g v).mpr hkeyed), heq]

theorem distinct_normal (g : Binary64 → Option Binary64) (v : Value) : (v.normal g).Distinct :=
  ((wellKeyed_iff _).mp (wellKeyed_rekey _)).1

theorem depth_normal_le (g : Binary64 → Option Binary64) (v : Value) :
    (v.normal g).depth ≤ v.depth :=
  (depth_rekey_le _).trans (depth_mapFloats g v).le

theorem mem_floats_of_mem_normal (g : Binary64 → Option Binary64) (v : Value) (y : Binary64)
    (h : y ∈ (v.normal g).floats) : ∃ x ∈ v.floats, g x = some y :=
  mem_floats_of_mem_mapFloats g v y (mem_floats_of_mem_rekey _ y h)

end Value

end DocTree
