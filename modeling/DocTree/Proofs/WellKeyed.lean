import Mathlib
import DocTree.Proofs.Collect
import DocTree.Proofs.DeepWrite
import DocTree.Proofs.Nesting

/-!
# Well-Keyed Values

A container has *lawful* keys if no two entries have the same key and every key is the
one that its own text denotes. A value is *well-keyed* if all its containers are so, at
every depth. Such a value can be written as text without losing an entry, since
distinct canonical keys have distinct texts.

Every operation on containers keeps this. For those that choose indices it takes room,
of course, and room is what the size of the result says: a result with no more than
2^63 values has never run out of indices on the way.

That the keys are canonical matters only where an operation makes a key of its own, which
is an index or the key that a text denotes. So all of this is proved for any kind of keys
that *covers* the canonical ones. Canonical keys are one such kind and make values
well-keyed; all keys are another, and say no more than that the keys are distinct.

## Main definitions

* `Key.Covers`: a kind of keys that the canonical ones belong to.
* `Entries.KeyedBy`, `Value.KeyedBy`: distinct keys of a kind, in one container and at every
  depth.
* `Value.WellKeyed`: distinct canonical keys at every depth.
* `Value.Fits`: values that a memory can hold.

## Theorems

* `of_lookup`: what passes from a container to its values holds of the slots.
* `distinct_iff_keyedBy`: distinct keys are distinct keys of any kind.
* `keyedBy_lookup`: slots keep the kind of the keys.
* `keyedBy_insert`, `keyedBy_overwrite`, `keyedBy_push`, `keyedBy_renumber`,
  `keyedBy_collect`: the operations on one container.
* `keyedBy_replace?`, `keyedBy_setPath`: writes further down.
-/

namespace DocTree

namespace Key

/-- The canonical keys are of this kind, and maybe others. -/
def Covers (P : Key → Prop) : Prop :=
  ∀ key : Key, key.Canonical → P key

variable {P : Key → Prop}

theorem covers_canonical : Covers Canonical :=
  fun _ h => h

theorem covers_any : Covers fun _ => True :=
  fun _ _ => trivial

/-- Each index is canonical, so it is of every kind that covers the canonical keys. -/
theorem Covers.index (h : Covers P) (i : Int64) : P (.index i) :=
  h _ (canonical_index i)

/-- So is the key that a text denotes. -/
theorem Covers.parse (h : Covers P) (s : String) : P (Key.parse s) :=
  h _ (canonical_parse s)

end Key

namespace Entries

variable {α : Type} {P : Key → Prop}

/-- No two entries have the same key, and every key is of this kind. -/
def KeyedBy (P : Key → Prop) (c : Entries α) : Prop :=
  c.Distinct ∧ ∀ key ∈ keys c, P key

/-- No two entries have the same key, and every key is canonical. -/
abbrev LawfulKeys (c : Entries α) : Prop :=
  c.KeyedBy Key.Canonical

/-! ## Values of entries -/

theorem values_append (c d : Entries α) : values (c ++ d) = values c ++ values d :=
  List.map_append

/-- Renumbering changes keys and no values. -/
theorem values_renumberFrom (n : Nat) (c : Entries α) :
    values (renumberFrom n c) = values c := by
  -- Along the entries. The counter goes up at an index only, so it is left open.
  induction c generalizing n with
  | nil => rfl
  | cons e c ih =>
      rcases e with ⟨key, v⟩
      cases key with
      | index i => exact congrArg (v :: ·) (ih (n + 1))
      | name s => exact congrArg (v :: ·) (ih n)

theorem values_renumber (c : Entries α) : values (renumber c) = values c :=
  values_renumberFrom 0 c

theorem length_push (c : Entries α) (v : α) : (push c v).length = c.length + 1 :=
  List.length_append

/-- An insertion removes no entry. -/
theorem length_le_insert (c : Entries α) (key : Key) (w : α) :
    c.length ≤ (insert c key w).length := by
  -- The keys are those before, or one more.
  have hkeys := congrArg List.length (keys_insert c key w)
  rw [keys, List.length_map] at hkeys
  rw [hkeys]
  split <;> simp [keys]

theorem length_renumber (c : Entries α) : (renumber c).length = c.length := by
  simpa only [values, List.length_map] using congrArg List.length (values_renumber c)

theorem values_numberedFrom (n : Nat) (vs : List α) : values (numberedFrom n vs) = vs := by
  induction vs generalizing n with
  | nil => rfl
  | cons v vs ih => exact congrArg (v :: ·) (ih (n + 1))

/-- A sequence has the values it is made of. -/
theorem values_ofValues (vs : List α) : values (ofValues vs) = vs :=
  values_numberedFrom 0 vs

theorem mem_values_of_get? (c : Entries α) (key : Key) (v : α) (h : get? c key = some v) :
    v ∈ values c :=
  List.mem_map_of_mem (mem_of_get? c key v h)

/-- Of two values in one place of the same entries, each has the values of the other. -/
theorem mem_values_middle (front back : Entries α) (key : Key) (u w v : α)
    (h : v ∈ values (front ++ (key, w) :: back)) :
    v = w ∨ v ∈ values (front ++ (key, u) :: back) := by
  simp only [values, List.map_append, List.map_cons, List.mem_append, List.mem_cons] at h ⊢
  rcases h with hfront | rfl | hback
  · exact Or.inr (Or.inl hfront)
  · exact Or.inl rfl
  · exact Or.inr (Or.inr (Or.inr hback))

/-- After an insertion the values are the new one and some of those before. -/
theorem mem_values_insert (c : Entries α) (key : Key) (w v : α)
    (h : v ∈ values (insert c key w)) : v = w ∨ v ∈ values c := by
  -- Either the value in one place has changed, or there is one more entry.
  rcases exists_place_insert_or_append c key w with ⟨front, u, back, rfl, hinsert⟩ | hinsert
  · rw [hinsert] at h
    exact mem_values_middle front back key u w v h
  · rw [hinsert, values_append] at h
    exact (List.mem_append.mp h).symm.imp_left List.mem_singleton.mp

/-- The same after an overwrite. -/
theorem mem_values_overwrite (c : Entries α) (key : Key) (w v : α)
    (h : v ∈ values (overwrite c key w)) : v = w ∨ v ∈ values c := by
  cases hget : get? c key with
  | none =>
      rw [overwrite_of_not_mem c key w ((get?_eq_none_iff c key).mp hget)] at h
      exact Or.inr h
  | some u =>
      rcases exists_place_overwrite c key u w hget with ⟨front, back, rfl, hoverwrite⟩
      rw [hoverwrite] at h
      exact mem_values_middle front back key u w v h

theorem length_ofValues (vs : List α) : (ofValues vs).length = vs.length := by
  simpa only [values, List.length_map] using congrArg List.length (values_ofValues vs)

/-! ## Keys of a kind -/

theorem keyedBy_nil : KeyedBy P ([] : Entries α) :=
  ⟨List.nodup_nil, fun _ h => absurd h List.not_mem_nil⟩

/-- Leaving entries out leaves the keys distinct and of the kind. -/
theorem keyedBy_of_sublist (c d : Entries α) (hc : c.KeyedBy P) (h : d.Sublist c) :
    d.KeyedBy P :=
  ⟨hc.1.sublist (h.map Prod.fst), fun key hkey => hc.2 key ((h.map Prod.fst).subset hkey)⟩

/-- An insertion adds its own key at most. -/
theorem keyedBy_insert (c : Entries α) (key : Key) (w : α) (hc : c.KeyedBy P)
    (hkey : P key) : (insert c key w).KeyedBy P := by
  refine ⟨distinct_insert c key w hc.1, fun k hk => ?_⟩
  -- A key of the result is one from before, or the one that was inserted.
  rw [keys_insert] at hk
  split at hk
  · exact hc.2 k hk
  · rcases List.mem_append.mp hk with hk | hk
    · exact hc.2 k hk
    · rw [List.mem_singleton.mp hk]
      exact hkey

/-- An overwrite adds no key. -/
theorem keyedBy_overwrite (c : Entries α) (key : Key) (w : α) (hc : c.KeyedBy P) :
    (overwrite c key w).KeyedBy P := by
  rwa [KeyedBy, Distinct, keys_overwrite]

/-- An entry at the end adds its key, which has to be a new one. -/
theorem keyedBy_concat (c : Entries α) (key : Key) (v : α) (hc : c.KeyedBy P)
    (hnew : key ∉ keys c) (hkey : P key) : KeyedBy P (c ++ [(key, v)]) := by
  refine ⟨distinct_concat c key v hc.1 hnew, fun k hk => ?_⟩
  rw [keys_append] at hk
  rcases List.mem_append.mp hk with hk | hk
  · exact hc.2 k hk
  · rw [List.mem_singleton.mp hk]
    exact hkey

/-- Renumbering makes the keys distinct if only the names were so before. -/
theorem keyedBy_renumber (hP : Key.Covers P) (c : Entries α)
    (hnames : (Slots.names c.slots).Nodup) (hkind : ∀ t ∈ Slots.names c.slots, P (.name t))
    (hroom : c.length ≤ 2 ^ 63) : (renumber c).KeyedBy P := by
  refine ⟨distinct_renumber c hnames hroom, fun key hkey => ?_⟩
  -- After renumbering each key is a number that was given or one of the names.
  rw [renumber, ← Slots.number_slots] at hkey
  rcases (Slots.mem_keys_number_iff 0 c.slots key).mp hkey with ⟨i, _, _, rfl⟩ | ⟨t, ht, rfl⟩
  · exact hP.index _
  · exact hkind t ht

/-- The names among the keys are of the kind, as all keys are. -/
theorem of_mem_names (c : Entries α) (hc : c.KeyedBy P) (t : String)
    (h : t ∈ Slots.names c.slots) : P (.name t) := by
  simp only [Slots.names, slots, List.filterMap_map, List.mem_filterMap, Function.comp_apply] at h
  rcases h with ⟨⟨key, v⟩, he, ht⟩
  -- An index is no name.
  cases key with
  | index i => exact absurd ht (by simp [Key.name?])
  | name s =>
      rw [Key.name?, Option.some.injEq] at ht
      exact hc.2 _ (List.mem_map.mpr ⟨_, he, by rw [ht]⟩)

/-- Values put in front have no names, so the names are those of the entries behind. -/
theorem names_ofValues_append (c : Entries α) (vs : List α) :
    Slots.names (ofValues vs ++ c).slots = Slots.names c.slots := by
  rw [slots_append, Slots.names_append, slots_ofValues, names_unnamed, List.nil_append]

theorem length_prepend (c : Entries α) (vs : List α) :
    (prepend c vs).length = vs.length + c.length := by
  rw [prepend, length_renumber, List.length_append, length_ofValues]

/-- Values in front get the first indices, and all other indices are given anew. -/
theorem keyedBy_prepend (hP : Key.Covers P) (c : Entries α) (vs : List α) (hc : c.KeyedBy P)
    (hroom : vs.length + c.length ≤ 2 ^ 63) : (prepend c vs).KeyedBy P := by
  refine keyedBy_renumber hP _ ?_ ?_ ?_
  · rw [names_ofValues_append]
    exact Slots.nodup_names_slots c hc.1
  · rw [names_ofValues_append]
    exact of_mem_names c hc
  · rwa [List.length_append, length_ofValues]

theorem distinct_prepend (c : Entries α) (vs : List α) (hc : c.Distinct)
    (hroom : vs.length + c.length ≤ 2 ^ 63) : (prepend c vs).Distinct :=
  (keyedBy_prepend Key.covers_any c vs ⟨hc, fun _ _ => trivial⟩ hroom).1

theorem prepend_nil (vs : List α) : prepend [] vs = ofValues vs := by
  rw [prepend, List.append_nil, renumber_of_slots _ _ (slots_ofValues vs)]

/-- A sequence is what renumbering makes of itself. -/
theorem keyedBy_ofValues (hP : Key.Covers P) (vs : List α) (hroom : vs.length ≤ 2 ^ 63) :
    (ofValues vs).KeyedBy P := by
  rw [← prepend_nil]
  exact keyedBy_prepend hP [] vs keyedBy_nil (by simpa using hroom)

/-- Collected pairs have distinct keys, all of them from the pairs. -/
theorem keyedBy_collect (pairs : List (Key × α)) (h : ∀ e ∈ pairs, P e.1) :
    (collect pairs).KeyedBy P := by
  refine ⟨distinct_collect pairs, fun key hkey => ?_⟩
  rcases List.mem_map.mp hkey with ⟨e, he, rfl⟩
  exact h e (mem_of_mem_collect pairs e he)

end Entries

namespace Value

variable {P : Key → Prop}

/-- Every container, at every depth, has distinct keys of this kind. -/
def KeyedBy (P : Key → Prop) (v : Value) : Prop :=
  v.Everywhere (Entries.KeyedBy P)

/-- Every container, at every depth, has distinct canonical keys. -/
abbrev WellKeyed (v : Value) : Prop :=
  v.KeyedBy Key.Canonical

/-- The keys of a container and those further down. -/
theorem keyedBy_container_iff (c : Entries Value) :
    (container c).KeyedBy P ↔ c.KeyedBy P ∧ ∀ v ∈ Entries.values c, v.KeyedBy P :=
  everywhere_container_iff _ c

theorem wellKeyed_container_iff (c : Entries Value) :
    (container c).WellKeyed ↔ c.LawfulKeys ∧ ∀ v ∈ Entries.values c, v.WellKeyed :=
  keyedBy_container_iff c

/-- To have distinct keys is to have distinct keys of any kind. -/
theorem distinct_iff_keyedBy (v : Value) : v.Distinct ↔ v.KeyedBy fun _ => True := by
  -- Of which kind the keys are is no condition here.
  have hkind : Entries.KeyedBy (α := Value) (fun _ => True) = Entries.Distinct :=
    funext fun c => propext (and_iff_left fun _ _ => trivial)
  rw [KeyedBy, hkind, distinct_iff_everywhere]

/-- A scalar has no keys. -/
theorem keyedBy_of_scalar (v : Value) (h : v.isContainer = false) : v.KeyedBy P :=
  everywhere_of_scalar _ v h

theorem keyedBy_nil : (container []).KeyedBy P :=
  (keyedBy_container_iff []).mpr
    ⟨Entries.keyedBy_nil, fun _ h => absurd h List.not_mem_nil⟩

/-! ## Room -/

/-- A memory can hold the value: there are indices for all that is in it. -/
def Fits (v : Value) : Prop :=
  v.size ≤ 2 ^ 63

instance (v : Value) : Decidable v.Fits :=
  inferInstanceAs (Decidable (v.size ≤ 2 ^ 63))

/-- If a container fits, so many entries it has at most. -/
theorem length_le_of_fits (c : Entries Value) (h : (container c).Fits) : c.length ≤ 2 ^ 63 := by
  have hlength := length_le_entriesSize c
  rw [Fits, size] at h
  omega

/-- What is in a value that fits does fit. -/
theorem fits_of_mem_values (c : Entries Value) (v : Value) (h : (container c).Fits)
    (hv : v ∈ Entries.values c) : v.Fits := by
  have hsize := size_le_of_mem_values c v hv
  rw [Fits, size] at h
  rw [Fits]
  omega

/-! ## Slots -/

/-- What passes from a container to its values holds of the slots at all depths. -/
theorem of_lookup {P : Value → Prop} (hP : ∀ c, P (container c) → ∀ v ∈ Entries.values c, P v)
    (v u : Value) (p : List Key) (hv : P v) (h : v.lookup p = some u) : P u := by
  -- Down the location: each step leads to a value of the container before.
  induction p generalizing v with
  | nil => rwa [← Option.some.inj h]
  | cons key p ih =>
      simp only [lookup, Option.bind_eq_some_iff] at h
      rcases h with ⟨x, hx, hu⟩
      rcases exists_container_of_child? v x key hx with ⟨c, rfl, hget⟩
      exact ih x (hP c hv x (Entries.mem_values_of_get? c key x hget)) hu

theorem fits_of_lookup (v u : Value) (p : List Key) (hv : v.Fits) (h : v.lookup p = some u) :
    u.Fits :=
  of_lookup (fun c hc x hx => fits_of_mem_values c x hc hx) v u p hv h

/-- What is read at any location has keys of the kind. -/
theorem keyedBy_lookup (v u : Value) (p : List Key) (hv : v.KeyedBy P)
    (h : v.lookup p = some u) : u.KeyedBy P :=
  of_lookup (fun c hc => ((keyedBy_container_iff c).mp hc).2) v u p hv h

/-! ## One container -/

theorem keyedBy_insert (c : Entries Value) (key : Key) (w : Value)
    (hc : (container c).KeyedBy P) (hkey : P key) (hw : w.KeyedBy P) :
    (container (Entries.insert c key w)).KeyedBy P := by
  rw [keyedBy_container_iff] at hc ⊢
  refine ⟨Entries.keyedBy_insert c key w hc.1 hkey, fun v hv => ?_⟩
  rcases Entries.mem_values_insert c key w v hv with rfl | hv
  · exact hw
  · exact hc.2 v hv

theorem keyedBy_overwrite (c : Entries Value) (key : Key) (w : Value)
    (hc : (container c).KeyedBy P) (hw : w.KeyedBy P) :
    (container (Entries.overwrite c key w)).KeyedBy P := by
  rw [keyedBy_container_iff] at hc ⊢
  refine ⟨Entries.keyedBy_overwrite c key w hc.1, fun v hv => ?_⟩
  rcases Entries.mem_values_overwrite c key w v hv with rfl | hv
  · exact hw
  · exact hc.2 v hv

theorem keyedBy_concat (c : Entries Value) (key : Key) (w : Value)
    (hc : (container c).KeyedBy P) (hnew : key ∉ Entries.keys c) (hkey : P key)
    (hw : w.KeyedBy P) : (container (c ++ [(key, w)])).KeyedBy P := by
  rw [keyedBy_container_iff] at hc ⊢
  rw [Entries.values_append]
  refine ⟨Entries.keyedBy_concat c key w hc.1 hnew hkey, fun v hv => ?_⟩
  rcases List.mem_append.mp hv with hv | hv
  · exact hc.2 v hv
  · rwa [List.mem_singleton.mp hv]

/-- A push takes a free index, as long as there is one. -/
theorem keyedBy_push (hP : Key.Covers P) (c : Entries Value) (v : Value)
    (hc : (container c).KeyedBy P) (hv : v.KeyedBy P) (hroom : c.length < 2 ^ 63) :
    (container (Entries.push c v)).KeyedBy P :=
  keyedBy_concat c _ v hc (Entries.nextIndex_not_mem_keys c hroom) (hP.index _) hv

/-- Pushes one after the other take one index each. -/
theorem keyedBy_foldl_push (hP : Key.Covers P) (c : Entries Value) (vs : List Value)
    (hc : (container c).KeyedBy P) (hvs : ∀ v ∈ vs, v.KeyedBy P)
    (hroom : c.length + vs.length ≤ 2 ^ 63) :
    (container (vs.foldl Entries.push c)).KeyedBy P := by
  induction vs generalizing c with
  | nil => exact hc
  | cons v vs ih =>
      rw [List.length_cons] at hroom
      -- Each push uses up an index, and the bound is for all of them.
      refine ih (Entries.push c v) ?_ (fun u hu => hvs u (List.mem_cons_of_mem _ hu)) ?_
      · exact keyedBy_push hP c v hc (hvs v List.mem_cons_self) (by omega)
      · rw [Entries.length_push]
        omega

theorem keyedBy_renumber (hP : Key.Covers P) (c : Entries Value) (hc : (container c).KeyedBy P)
    (hroom : c.length ≤ 2 ^ 63) : (container (Entries.renumber c)).KeyedBy P := by
  rw [keyedBy_container_iff] at hc ⊢
  rw [Entries.values_renumber]
  exact ⟨Entries.keyedBy_renumber hP c (Slots.nodup_names_slots c hc.1.1)
    (Entries.of_mem_names c hc.1) hroom, hc.2⟩

theorem keyedBy_prepend (hP : Key.Covers P) (c : Entries Value) (vs : List Value)
    (hc : (container c).KeyedBy P) (hvs : ∀ v ∈ vs, v.KeyedBy P)
    (hroom : vs.length + c.length ≤ 2 ^ 63) :
    (container (Entries.prepend c vs)).KeyedBy P := by
  rw [keyedBy_container_iff] at hc ⊢
  refine ⟨Entries.keyedBy_prepend hP c vs hc.1 hroom, fun v hv => ?_⟩
  rw [Entries.prepend, Entries.values_renumber, Entries.values_append,
    Entries.values_ofValues] at hv
  rcases List.mem_append.mp hv with hv | hv
  · exact hvs v hv
  · exact hc.2 v hv

theorem keyedBy_of_sublist (c d : Entries Value) (hc : (container c).KeyedBy P)
    (h : d.Sublist c) : (container d).KeyedBy P := by
  rw [keyedBy_container_iff] at hc ⊢
  exact ⟨Entries.keyedBy_of_sublist c d hc.1 h,
    fun v hv => hc.2 v ((h.map Prod.snd).subset hv)⟩

/-- A sequence has the first indices for its keys. -/
theorem keyedBy_sequence (hP : Key.Covers P) (vs : List Value)
    (hvs : ∀ v ∈ vs, v.KeyedBy P) (hroom : vs.length ≤ 2 ^ 63) : (sequence vs).KeyedBy P := by
  rw [sequence, keyedBy_container_iff, Entries.values_ofValues]
  exact ⟨Entries.keyedBy_ofValues hP vs hroom, hvs⟩

theorem keyedBy_collect (pairs : List (Key × Value)) (hkeys : ∀ e ∈ pairs, P e.1)
    (hvalues : ∀ v ∈ Entries.values (Entries.collect pairs), v.KeyedBy P) :
    (container (Entries.collect pairs)).KeyedBy P := by
  rw [keyedBy_container_iff]
  exact ⟨Entries.keyedBy_collect pairs hkeys, hvalues⟩

/-- A scalar becomes the sequence of itself. -/
theorem keyedBy_toEntries (hP : Key.Covers P) (v : Value) (hv : v.KeyedBy P) :
    (container v.toEntries).KeyedBy P := by
  cases v with
  | container c => exact hv
  | _ => exact keyedBy_sequence hP [_] (by simpa using hv) (by simp)

/-! ## Writes -/

/-- A value put into a slot brings its own keys and no others. -/
theorem keyedBy_replace? (v w v' : Value) (p : List Key) (hv : v.KeyedBy P)
    (hw : w.KeyedBy P) (h : v.replace? p w = some v') : v'.KeyedBy P := by
  -- Down the location. On the way back each container gets the changed value for the one it had.
  induction p generalizing v v' with
  | nil => rwa [← Option.some.inj h]
  | cons key p ih =>
      rcases replace?_cons v w v' key p h with ⟨c, u, u', rfl, hget, hu', rfl⟩
      have hu := ((keyedBy_container_iff c).mp hv).2 u (Entries.mem_values_of_get? c key u hget)
      exact keyedBy_overwrite c key u' hv (ih u u' hu hu')

/-- A write along a location brings the keys of the location as well. -/
theorem keyedBy_setPath (c : Entries Value) (location : List Key) (w : Value)
    (hc : (container c).KeyedBy P) (hlocation : ∀ key ∈ location, P key)
    (hw : w.KeyedBy P) : (container (c.setPath location w)).KeyedBy P := by
  induction location generalizing c with
  | nil => exact hc
  | cons key location ih =>
      have hkey := hlocation key List.mem_cons_self
      by_cases hnil : location = []
      · rw [hnil, Entries.setPath_singleton]
        exact keyedBy_insert c key w hc hkey hw
      · -- What is written into is a value of the container, or a new container.
        have hbelow : (container (c.below key)).KeyedBy P := by
          rcases Entries.below_eq_nil_or c key with hempty | hget
          · rw [hempty]
            exact keyedBy_nil
          · exact ((keyedBy_container_iff c).mp hc).2 _ (Entries.mem_values_of_get? c key _ hget)
        rw [Entries.setPath_cons c key location w hnil]
        exact keyedBy_insert c key _ hc hkey
          (ih (c.below key) hbelow fun k hk => hlocation k (List.mem_cons_of_mem _ hk))

end Value

end DocTree
