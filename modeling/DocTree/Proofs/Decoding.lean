import Mathlib
import DocTree.Codec
import DocTree.Proofs.WellKeyed

/-!
# Decoded and Encoded Values

What is read from a text is well-keyed, in either format. Keys of different kinds may
come down to the same key, say `1` and `"1"`, but a map keeps one entry of those, and
each kind of key is read as one that its own text denotes.

Conversely a well-keyed value is written without repeating a name: its keys are
distinct, and distinct canonical keys have distinct texts.

## Main definitions

* `Tree.DistinctNames`: no object has two members of one name.

## Theorems

* `canonical_ofDatum?`: a key that is read is canonical.
* `wellKeyed_ofDatum?`, `wellKeyed_ofTree`: decoded values are well-keyed.
* `ofJson_eq_ok_iff`: reading JSON goes by way of a tree.
* `wellKeyed_ofJson`, `wellKeyed_ofYaml`: so are values read from text.
* `distinctNames_ofValue`: a well-keyed value is written with distinct names.
-/

namespace DocTree

/-- A key that is read is the one its own text denotes. -/
theorem Key.canonical_ofDatum? (d : Datum) (key : Key) (h : Key.ofDatum? d = some key) :
    key.Canonical := by
  cases d with
  | string s =>
      rw [← Option.some.inj h]
      exact canonical_parse s
  | integer i =>
      rw [Key.ofDatum?] at h
      split at h
      · rw [← Option.some.inj h]
        exact canonical_index _
      · -- The digits of an integer that is too large spell no index.
        rename_i hnone
        rw [← Option.some.inj h, canonical_name_iff]
        intro j hj
        have hdigits : Decimal.ofInt i = Decimal.ofInt j.toInt := String.ofList_injective hj
        rw [Decimal.ofInt_injective _ _ hdigits,
          (Decimal.int64?_eq_some_iff _ j).mpr rfl] at hnone
        exact absurd hnone (by simp)
  | bool b =>
      rw [← Option.some.inj h]
      -- The two names are no numbers.
      cases b <;> decide
  | _ => exact absurd h (by simp [Key.ofDatum?])

namespace Value

mutual

/-- A decoded value is well-keyed, if it fits. -/
theorem wellKeyed_ofDatum? : ∀ (d : Datum) (v : Value), ofDatum? d = some v →
    v.size ≤ 2 ^ 63 → v.WellKeyed
  | .null, _, h, _ | .bool _, _, h, _ | .float _, _, h, _ | .string _, _, h, _ => by
    rw [← Option.some.inj h]
    exact keyedBy_of_scalar _ rfl
  | .integer i, v, h, _ => by
    rw [← Option.some.inj h, ofInteger]
    split <;> exact keyedBy_of_scalar _ rfl
  | .tagged _ _, _, h, _ => absurd h (by simp [ofDatum?])
  | .list items, v, h, hroom => by
    rw [ofDatum?, Option.map_eq_some_iff] at h
    rcases h with ⟨vs, hvs, rfl⟩
    rw [sequence, size] at hroom
    have hsize : ∀ u ∈ vs, u.size ≤ 2 ^ 63 := by
      intro u hu
      have := size_le_of_mem_values _ u (by rwa [Entries.values_ofValues])
      omega
    have hlength := length_le_entriesSize (Entries.ofValues vs)
    rw [Entries.length_ofValues] at hlength
    exact keyedBy_sequence Key.covers_canonical vs
      (fun u hu => wellKeyed_ofData? items vs hvs u hu (hsize u hu)) (by omega)
  | .map pairs, v, h, hroom => by
    rw [ofDatum?, Option.map_eq_some_iff] at h
    rcases h with ⟨ps, hps, rfl⟩
    rw [size] at hroom
    refine keyedBy_collect ps (fun e he => (wellKeyed_ofPairs? pairs ps hps e he).1) ?_
    intro u hu
    have hsize := size_le_of_mem_values _ u hu
    rcases List.mem_map.mp hu with ⟨e, he, rfl⟩
    exact (wellKeyed_ofPairs? pairs ps hps e (Entries.mem_of_mem_collect ps e he)).2 (by omega)

theorem wellKeyed_ofData? : ∀ (ds : List Datum) (vs : List Value), ofData? ds = some vs →
    ∀ v ∈ vs, v.size ≤ 2 ^ 63 → v.WellKeyed
  | [], _, h, v, hv, _ => by
    rw [← Option.some.inj h] at hv
    exact absurd hv List.not_mem_nil
  | d :: ds, vs, h, v, hv, hroom => by
    simp only [ofData?, Option.bind_eq_some_iff, Option.map_eq_some_iff] at h
    rcases h with ⟨u, hu, us, hus, rfl⟩
    rcases List.mem_cons.mp hv with rfl | hv
    · exact wellKeyed_ofDatum? d v hu hroom
    · exact wellKeyed_ofData? ds us hus v hv hroom

theorem wellKeyed_ofPairs? : ∀ (ps : List (Datum × Datum)) (es : List (Key × Value)),
    ofPairs? ps = some es →
    ∀ e ∈ es, e.1.Canonical ∧ (e.2.size ≤ 2 ^ 63 → e.2.WellKeyed)
  | [], _, h, e, he => by
    rw [← Option.some.inj h] at he
    exact absurd he List.not_mem_nil
  | (k, d) :: ps, es, h, e, he => by
    simp only [ofPairs?, Option.bind_eq_some_iff, Option.map_eq_some_iff] at h
    rcases h with ⟨key, hkey, v, hv, rest, hrest, rfl⟩
    rcases List.mem_cons.mp he with rfl | he
    · exact ⟨Key.canonical_ofDatum? k key hkey, wellKeyed_ofDatum? d v hv⟩
    · exact wellKeyed_ofPairs? ps rest hrest e he

end

theorem wellKeyed_ofTree (t : Tree) (hroom : (ofTree t).size ≤ 2 ^ 63) :
    (ofTree t).WellKeyed :=
  wellKeyed_ofDatum? t.toDatum _ (ofDatum?_toDatum t) hroom

/-- A text is read if it is one of a tree, and then the value is that of the tree. -/
theorem ofJson_eq_ok_iff (text : String) (v : Value) :
    ofJson text = .ok v ↔ ∃ t, Json.parse text = .ok t ∧ ofTree t = v := by
  rw [ofJson]
  split
  · rename_i t ht
    simp only [ofDatum?_toDatum, Option.get_some, ht, Except.ok.injEq, exists_eq_left']
  · rename_i e he
    simp [he]

theorem wellKeyed_ofJson (text : String) (v : Value) (h : ofJson text = .ok v)
    (hroom : v.size ≤ 2 ^ 63) : v.WellKeyed := by
  rcases (ofJson_eq_ok_iff text v).mp h with ⟨t, -, rfl⟩
  exact wellKeyed_ofTree t hroom

theorem wellKeyed_ofYaml (text : String) (v : Value) (h : ofYaml text = .ok v)
    (hroom : v.size ≤ 2 ^ 63) : v.WellKeyed := by
  unfold ofYaml at h
  split at h
  · rename_i d _
    split at h
    · rename_i u hu
      rw [← Except.ok.inj h] at hroom ⊢
      exact wellKeyed_ofDatum? d u hu hroom
    · exact absurd h (by simp)
  · exact absurd h (by simp)

end Value

namespace Tree

mutual

/-- No object in the tree, at any depth, has two members of one name. -/
def DistinctNames : Tree → Prop
  | list items => ItemsDistinctNames items
  | object members => (members.map Prod.fst).Nodup ∧ MembersDistinctNames members
  | _ => True

def ItemsDistinctNames : List Tree → Prop
  | [] => True
  | t :: ts => t.DistinctNames ∧ ItemsDistinctNames ts

def MembersDistinctNames : List (String × Tree) → Prop
  | [] => True
  | (_, t) :: ms => t.DistinctNames ∧ MembersDistinctNames ms

end

theorem names_ofEntries (c : Entries Value) :
    (ofEntries c).map Prod.fst = (Entries.keys c).map Key.text := by
  induction c with
  | nil => rfl
  | cons e c ih =>
      rcases e with ⟨key, v⟩
      exact congrArg (key.text :: ·) ih

/-- Canonical keys that are distinct have distinct texts. -/
theorem nodup_map_text (keys : List Key) (h : keys.Nodup)
    (hcanonical : ∀ key ∈ keys, key.Canonical) : (keys.map Key.text).Nodup :=
  List.Nodup.map_on
    (fun k hk l hl heq => Key.eq_of_text_eq k l (hcanonical k hk) (hcanonical l hl) heq) h

/-- A well-keyed value is written with distinct names. -/
theorem distinctNames_ofValue (v : Value) (h : v.WellKeyed) : (ofValue v).DistinctNames := by
  -- Induction on the value, along with its entries.
  refine (Value.induction (P := fun v => v.WellKeyed → (ofValue v).DistinctNames)
    (Q := fun c => (∀ u ∈ Entries.values c, u.WellKeyed) →
      ItemsDistinctNames (ofValues c) ∧ MembersDistinctNames (ofEntries c))
    (fun v hv _ => ?_) (fun c hc hkeyed => ?_) (fun _ => ⟨trivial, trivial⟩)
    fun key u c hu hc hkeyed => ?_).1 v h
  · cases v with
    | container c => exact absurd hv (by simp [Value.isContainer])
    | _ => trivial
  · rw [Value.wellKeyed_container_iff] at hkeyed
    rw [ofValue]
    split
    · exact (hc hkeyed.2).1
    · refine ⟨?_, (hc hkeyed.2).2⟩
      rw [names_ofEntries]
      exact nodup_map_text _ hkeyed.1.1 hkeyed.1.2
  · rw [Entries.values, List.map_cons, List.forall_mem_cons] at hkeyed
    exact ⟨⟨hu hkeyed.1, (hc hkeyed.2).1⟩, ⟨hu hkeyed.1, (hc hkeyed.2).2⟩⟩

end Tree

end DocTree
