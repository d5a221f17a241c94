import Mathlib
import DocTree.Proofs.Decoding
import DocTree.Proofs.Json.RoundTrip

/-!
# Through a Text and Back

What comes back of a value that is written and read. The writer decides for each container
by its keys whether it becomes a list or an object, and the reader numbers the one and reads
the names of the other; either way the container comes back with its keys as their texts
denote. So what comes back is the normal form of the value, in JSON without the floats that
are not finite, in YAML with all of them.

For JSON the reader is followed through the text, and all that is assumed of numbers is
that each finite float is read back when it stands alone. For YAML it is assumed of the text
as a whole that it is read as the tree that was written.

## Main definitions

* `Value.Same`: structural equality, with all NaNs the same.
* `Yaml.ReadsBack`: the YAML text of a value is read as the tree that was written.

## Theorems

* `ofTree_ofValue`: what is decoded of the tree of a value.
* `ofJson_toJson`, `ofYaml_toYaml`: what comes back.
* `read_write`: what comes back once and twice, and which values come back unchanged.
-/

namespace DocTree

/-! ## Comparing data -/

namespace Datum

mutual

/-- The two data are the same. -/
def same : Datum → Datum → Bool
  | null, null => true
  | bool a, bool b => a = b
  | integer i, integer j => i = j
  | float x, float y => x = y
  | string s, string t => s = t
  | list ds, list es => sameItems ds es
  | map ps, map qs => samePairs ps qs
  | tagged s d, tagged t e => s = t && same d e
  | _, _ => false

def sameItems : List Datum → List Datum → Bool
  | [], [] => true
  | d :: ds, e :: es => same d e && sameItems ds es
  | _, _ => false

def samePairs : List (Datum × Datum) → List (Datum × Datum) → Bool
  | [], [] => true
  | (k, d) :: ps, (l, e) :: qs => same k l && same d e && samePairs ps qs
  | _, _ => false

end

mutual

theorem same_iff : ∀ d e : Datum, same d e = true ↔ d = e
  | null, e | bool _, e | integer _, e | float _, e | string _, e => by
    cases e <;> simp [same]
  | list ds, e => by cases e <;> simp [same, sameItems_iff ds]
  | map ps, e => by cases e <;> simp [same, samePairs_iff ps]
  | tagged _ d, e => by cases e <;> simp [same, same_iff d]

theorem sameItems_iff : ∀ ds es : List Datum, sameItems ds es = true ↔ ds = es
  | [], es => by cases es <;> simp [sameItems]
  | d :: ds, es => by cases es <;> simp [sameItems, same_iff d, sameItems_iff ds]

theorem samePairs_iff : ∀ ps qs : List (Datum × Datum), samePairs ps qs = true ↔ ps = qs
  | [], qs => by cases qs <;> simp [samePairs]
  | (k, d) :: ps, qs => by
    rcases qs with _ | ⟨⟨l, e⟩, qs⟩ <;>
      simp [samePairs, same_iff k, same_iff d, samePairs_iff ps]

end

instance : DecidableEq Datum :=
  fun d e => decidable_of_iff _ (same_iff d e)

end Datum

/-! ## Assumptions -/

/-- All NaNs become one. -/
def Binary64.identify (x : Binary64) : Binary64 :=
  if x.isNaN then nan else x

theorem Binary64.identify_identify (x : Binary64) : x.identify.identify = x.identify := by
  have hnan : nan.identify = nan := if_pos (by decide)
  by_cases hx : x.isNaN = true
  · rw [show x.identify = nan from if_pos hx, hnan]
  · rw [show x.identify = x from if_neg hx, show x.identify = x from if_neg hx]

/-- YAML keeps all floats, but NaN only as such. -/
def Yaml.keptFloat (x : Binary64) : Option Binary64 :=
  some x.identify

/-- The YAML text of a value is read as the tree that was written. -/
def Yaml.ReadsBack (v : Value) : Prop :=
  Yaml.parse (Yaml.write (Tree.ofValue v))
    = .ok (Tree.ofValue (v.mapFloats Yaml.keptFloat)).toDatum

instance (v : Value) : Decidable (Yaml.ReadsBack v) :=
  inferInstanceAs (Decidable (Yaml.parse (Yaml.write (Tree.ofValue v))
    = .ok (Tree.ofValue (v.mapFloats Yaml.keptFloat)).toDatum))

namespace Value

/-- Structural equality, with all NaNs the same. -/
def Same (v w : Value) : Prop :=
  v.mapFloats (fun x => some x.identify) = w.mapFloats fun x => some x.identify

/-! ## Encoding and decoding -/

theorem ofInteger_toInt (i : Int64) : ofInteger i.toInt = int i := by
  rw [ofInteger, (Decimal.int64?_eq_some_iff _ i).mpr rfl]

/-- A tree that was made of a value is decoded with the keys as their texts denote. -/
theorem ofTree_ofValue (v : Value) (h : v.Distinct) : ofTree (Tree.ofValue v) = v.rekey := by
  -- As members, entries are read with their keys again. As items they are numbered, from where
  -- their keys started, which comes to the same.
  refine (induction (P := fun v => v.Distinct → ofTree (Tree.ofValue v) = v.rekey)
    (Q := fun c => EntriesDistinct c →
      ofMembers (Tree.ofEntries c) = rekeyEntries c ∧
        ∀ n, Entries.sequenceFrom n c = true →
          Entries.numberedFrom n (ofTrees (Tree.ofValues c)) = rekeyEntries c ∧
            Entries.keys (rekeyEntries c) = Entries.keys c)
    (fun v hv _ => ?_) (fun c hc hdistinct => ?_) (fun _ => ⟨rfl, fun _ _ => ⟨rfl, rfl⟩⟩)
    fun key v c hv hc hdistinct => ?_).1 v h
  · cases v with
    | int i => exact ofInteger_toInt i
    | container c => exact absurd hv (by simp [isContainer])
    | _ => rfl
  · have hentries := hc hdistinct.2
    rw [Tree.ofValue, rekey]
    split
    · -- The keys of a list are those that its items are given again.
      rename_i hsequence
      rcases hentries.2 0 hsequence with ⟨hvalues, hkeys⟩
      have hkeep : Entries.Distinct (rekeyEntries c) := by
        rw [Entries.Distinct, hkeys]
        exact hdistinct.1
      rw [ofTree, sequence, Entries.ofValues, hvalues, Entries.collect_of_distinct _ hkeep]
    · rw [ofTree, hentries.1]
  · have hvalue := hv hdistinct.1
    have hentries := hc hdistinct.2
    refine ⟨?_, fun n hsequence => ?_⟩
    · rw [Tree.ofEntries, ofMembers, rekeyEntries, hvalue, hentries.1]
    · rw [Entries.sequenceFrom, Bool.and_eq_true, decide_eq_true_eq] at hsequence
      rcases hentries.2 (n + 1) hsequence.2 with ⟨hvalues, hkeys⟩
      have hkey : Key.parse key.text = key := by
        rw [hsequence.1]
        exact Key.canonical_index _
      refine ⟨?_, ?_⟩
      · rw [Tree.ofValues, ofTrees, Entries.numberedFrom, rekeyEntries, hvalue, hvalues, hkey,
          hsequence.1]
      · rw [rekeyEntries, hkey]
        exact congrArg (key :: ·) hkeys

theorem ofTree_ofValue_mapFloats (g : Binary64 → Option Binary64) (v : Value) (h : v.Distinct) :
    ofTree (Tree.ofValue (v.mapFloats g)) = v.normal g :=
  ofTree_ofValue _ ((distinct_mapFloats_iff g v).mpr h)

/-! ## Texts -/

/-- From a JSON text the normal form comes back, without the floats that are not finite. -/
theorem ofJson_toJson (v : Value) (pretty : Bool) (h : v.Distinct)
    (hdepth : v.depth ≤ Json.maxNesting)
    (hfloats : ∀ x ∈ v.floats, x.isFinite = true → Json.ReadsBack x) :
    ofJson (v.toJson pretty) = .ok (v.normal Json.keptFloat) := by
  have hparse := Json.parse_write pretty v hdepth hfloats
  exact (ofJson_eq_ok_iff _ _).mpr ⟨_, hparse, ofTree_ofValue_mapFloats _ v h⟩

/-- A value with the keys that decoding makes comes back as it is, if all its floats do. -/
theorem ofJson_toJson_of_wellKeyed (v : Value) (pretty : Bool) (h : v.WellKeyed)
    (hdepth : v.depth ≤ Json.maxNesting) (hfloats : ∀ x ∈ v.floats, Json.ReadsBack x) :
    ofJson (v.toJson pretty) = .ok v := by
  have hkept : v.mapFloats Json.keptFloat = v := by
    conv_rhs => rw [← mapFloats_some v]
    refine (mapFloats_eq_mapFloats_iff _ _ v).mpr fun x hx => ?_
    exact Json.keptFloat_of_isFinite x (Json.isFinite_of_readsBack x (hfloats x hx))
  have hread := ofJson_toJson v pretty ((wellKeyed_iff v).mp h).1 hdepth fun x hx _ => hfloats x hx
  rwa [normal, hkept, rekey_of_wellKeyed v h] at hread

/-- From a YAML text the normal form comes back. -/
theorem ofYaml_toYaml (v : Value) (h : v.Distinct) (hread : Yaml.ReadsBack v) :
    ofYaml v.toYaml = .ok (v.normal Yaml.keptFloat) := by
  rw [ofYaml, toYaml, hread]
  simp only [ofDatum?_toDatum, ofTree_ofValue_mapFloats _ v h]

/-! ## Normal forms -/

/-- What comes back of a value that is written and read is its normal form. A normal form comes
back unchanged, and so does a value in which no name spells an integer and, for JSON, all floats
are finite. -/
theorem read_write (v : Value) (h : v.Distinct) (hdepth : v.depth ≤ Json.maxNesting)
    (hfloats : ∀ x ∈ v.floats, x.isFinite = true → Json.ReadsBack x)
    (hyaml : Yaml.ReadsBack v) (hagain : Yaml.ReadsBack (v.normal Yaml.keptFloat)) :
    -- the first time
    ((∀ pretty, ofJson (v.toJson pretty) = .ok (v.normal Json.keptFloat)) ∧
      ofYaml v.toYaml = .ok (v.normal Yaml.keptFloat)) ∧
    -- the second time
    ((v.normal Json.keptFloat).normal Json.keptFloat = v.normal Json.keptFloat ∧
      (v.normal Yaml.keptFloat).normal Yaml.keptFloat = v.normal Yaml.keptFloat ∧
      (∀ pretty, ofJson ((v.normal Json.keptFloat).toJson pretty)
        = .ok (v.normal Json.keptFloat)) ∧
      ofYaml (v.normal Yaml.keptFloat).toYaml = .ok (v.normal Yaml.keptFloat)) ∧
    -- unchanged
    ((v.normal Json.keptFloat).Same v
        ↔ v.Everywhere Entries.PlainNames ∧ ∀ x ∈ v.floats, x.isFinite = true) ∧
    ((v.normal Yaml.keptFloat).Same v ↔ v.Everywhere Entries.PlainNames) := by
  have hjson : ∀ x, (Json.keptFloat x).bind Json.keptFloat = Json.keptFloat x := by
    intro x
    cases hx : Json.keptFloat x with
    | none => rfl
    | some y => exact Json.keptFloat_of_isFinite y (Json.isFinite_of_keptFloat x y hx).1
  have hyamlAgain : ∀ x, (Yaml.keptFloat x).bind Yaml.keptFloat = Yaml.keptFloat x :=
    fun x => congrArg some x.identify_identify
  have hdistinct : ∀ g, (v.normal g).Distinct := fun g => distinct_normal g v
  -- What comes back is distinct, no deeper, and has no floats but those that were there, so the
  -- second time nothing more is assumed of JSON than the first time.
  refine ⟨⟨fun pretty => ofJson_toJson v pretty h hdepth hfloats, ofYaml_toYaml v h hyaml⟩,
    ⟨normal_normal _ v hjson, normal_normal _ v hyamlAgain, fun pretty => ?_, ?_⟩, ?_, ?_⟩
  · have hread := ofJson_toJson (v.normal Json.keptFloat) pretty (hdistinct _)
      ((depth_normal_le _ v).trans hdepth) fun y hy hfinite => ?_
    · rwa [normal_normal _ v hjson] at hread
    · rcases mem_floats_of_mem_normal _ v y hy with ⟨x, hx, hxy⟩
      rw [(Json.isFinite_of_keptFloat x y hxy).2] at hx
      exact hfloats y hx hfinite
  · have hread := ofYaml_toYaml (v.normal Yaml.keptFloat) (hdistinct _) hagain
    rwa [normal_normal _ v hyamlAgain] at hread
  · rw [Same, mapFloats_normal, normal_eq_mapFloats_iff _ _ v h]
    refine and_congr_right fun _ => forall₂_congr fun x _ => ?_
    by_cases hx : x.isFinite = true
    · simp [Json.keptFloat_of_isFinite x hx, hx]
    · simp [Json.keptFloat_of_not_isFinite x hx, hx]
  · rw [Same, mapFloats_normal, normal_eq_mapFloats_iff _ _ v h]
    exact and_iff_left fun x _ => hyamlAgain x

/-- The name `1` becomes the index and takes over its place. -/
theorem read_write_of_name_one :
    let half : Binary64 := ⟨0x3FE0000000000000⟩
    let v := container [(.index 1, float half),
      (.name "1", container [(.index 0, float .positiveInfinity)]), (.name "a", null)]
    ofJson (v.toJson true)
        = .ok (container [(.index 1, container [(.index 0, null)]), (.name "a", null)]) ∧
      ofYaml v.toYaml
        = .ok (container [(.index 1, container [(.index 0, float .positiveInfinity)]),
          (.name "a", null)]) := by
  intro half v
  have hfloats : ∀ x ∈ v.floats, x.isFinite = true → Json.ReadsBack x := by decide +kernel
  have hdistinct : v.Distinct := by
    simp [v, Distinct, EntriesDistinct, Entries.Distinct, Entries.keys]
  have hread := read_write v hdistinct (by decide) hfloats (by decide +kernel) (by decide +kernel)
  exact ⟨hread.1.1 true, hread.1.2⟩

end Value

end DocTree
