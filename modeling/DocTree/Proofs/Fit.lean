import Mathlib
import DocTree.Tree
import DocTree.Proofs.Collect
import DocTree.Proofs.WellKeyed

/-!
# Which Data Have a Value

A datum does not say what kind of value it is to become. It can be tried as one kind after
the other, with containers last, and a kind that fails is passed over in silence, however
deep down the reason lies. `firstFit?` does that. `ofDatum?` goes by the form of the datum
instead, and comes to the same: only an integer could be taken by two kinds, and what the
kind of its own form does not take no other kind takes at all. So nothing that fails as a
container can slip through as something else, and a failure below is a failure of the whole.

What fails is then easy to say. A tag fails, and so does a key that is no string, integer
or boolean, and nothing else, at whatever depth they occur.

What a datum denotes is stated without decoding it. Items are numbered. Keys denote keys,
several of them perhaps the same one; each key stands where it came first and holds what
the last datum under it denotes.

## Main definitions

* `Datum.Occurs`: one datum is somewhere in another.
* `Datum.Unfit`: a datum for which there is no value, whatever it contains.
* `Key.Names`: a datum denotes a key.
* `Value.Denotes`: a datum denotes a value.
* `Value.firstFit?`: decoding by trying one kind after the other.

## Theorems

* `eq_ofValues`: entries are a sequence if their keys are those of one.
* `exists_unfit_list_iff`, `exists_unfit_map_iff`: where something unfit can be.
* `firstFit?_eq_ofDatum?`: trying the kinds in order comes to going by the form.
* `ofDatum?_eq_none_iff`: which data have no value.
* `ofDatum?_eq_some_iff`: what the others denote.
* `decoding_is_exact`: all of this.
-/

namespace DocTree

/-! ## Sequences -/

namespace Entries

variable {α : Type}

theorem keys_numberedFrom (n : Nat) (vs : List α) :
    keys (numberedFrom n vs) =
      (List.range' n vs.length).map fun i => .index (Int64.ofNat i) := by
  induction vs generalizing n with
  | nil => rfl
  | cons v vs ih => exact congrArg (Key.index (Int64.ofNat n) :: ·) (ih (n + 1))

/-- The keys of a sequence are the indices from 0 on. -/
theorem keys_ofValues (vs : List α) :
    keys (ofValues vs) = (List.range vs.length).map fun i => .index (Int64.ofNat i) := by
  rw [List.range_eq_range']
  exact keys_numberedFrom 0 vs

/-- Entries are a sequence if their keys are those of one. -/
theorem eq_ofValues (c : Entries α)
    (h : keys c = (List.range c.length).map fun i => .index (Int64.ofNat i)) :
    c = ofValues (values c) := by
  have hlength : (values c).length = c.length := List.length_map _
  have hkeys : keys (ofValues (values c)) = keys c := by rw [keys_ofValues, hlength, h]
  calc c = (keys c).zip (values c) := List.zip_of_prod rfl rfl
    _ = ofValues (values c) := (List.zip_of_prod hkeys (values_ofValues _)).symm

end Entries

/-! ## Data -/

namespace Datum

/-- One datum occurs in another: it is that datum, or occurs in an item, in a key, in what is under
    a key, or behind a tag. -/
inductive Occurs (e : Datum) : Datum → Prop
  | self : Occurs e e
  | item (d : Datum) (ds : List Datum) : d ∈ ds → Occurs e d → Occurs e (.list ds)
  | key (k d : Datum) (ps : List (Datum × Datum)) :
      (k, d) ∈ ps → Occurs e k → Occurs e (.map ps)
  | value (k d : Datum) (ps : List (Datum × Datum)) :
      (k, d) ∈ ps → Occurs e d → Occurs e (.map ps)
  | content (tag : String) (d : Datum) : Occurs e d → Occurs e (.tagged tag d)

/-- A string, an integer or a boolean may stand as a key. -/
def isKey : Datum → Bool
  | string _ | integer _ | bool _ => true
  | _ => false

/-- A datum that contains no other. -/
def isScalar : Datum → Bool
  | list _ | map _ | tagged _ _ => false
  | _ => true

/-- A property of data holds throughout if a list, a map and a tagged datum have it whenever all
    in them do. -/
theorem induction {P : Datum → Prop} (scalar : ∀ d, d.isScalar = true → P d)
    (list : ∀ ds, (∀ d ∈ ds, P d) → P (list ds))
    (map : ∀ ps, (∀ p ∈ ps, P p.1 ∧ P p.2) → P (map ps))
    (tagged : ∀ tag d, P d → P (tagged tag d)) (d : Datum) : P d :=
  @Datum.rec P (fun ds => ∀ d ∈ ds, P d) (fun ps => ∀ p ∈ ps, P p.1 ∧ P p.2)
    (fun p => P p.1 ∧ P p.2) (scalar null rfl) (fun b => scalar (bool b) rfl)
    (fun i => scalar (integer i) rfl) (fun x => scalar (float x) rfl)
    (fun s => scalar (string s) rfl) list map tagged
    (fun _ h => absurd h List.not_mem_nil) (fun _ _ hd hds => List.forall_mem_cons.mpr ⟨hd, hds⟩)
    (fun _ h => absurd h List.not_mem_nil) (fun _ _ hp hps => List.forall_mem_cons.mpr ⟨hp, hps⟩)
    (fun _ _ hk hd => ⟨hk, hd⟩) d

/-- Nothing else occurs in a scalar. -/
theorem Occurs.eq_of_isScalar {e d : Datum} (h : Occurs e d) (hd : d.isScalar = true) : e = d := by
  cases h with
  | self => rfl
  | _ => exact absurd hd (by simp [isScalar])

/-- A key contains no other datum. -/
theorem isScalar_of_isKey (d : Datum) (h : d.isKey = true) : d.isScalar = true := by
  cases d with
  | list _ | map _ | tagged _ _ => exact absurd h (by simp [isKey])
  | _ => rfl

/-- What no value has room for: a tag, and a map with a key that may not be one. -/
inductive Unfit : Datum → Prop
  | tagged (tag : String) (d : Datum) : Unfit (.tagged tag d)
  | key (k d : Datum) (ps : List (Datum × Datum)) :
      (k, d) ∈ ps → k.isKey = false → Unfit (.map ps)

/-- Nothing unfit occurs in a scalar. -/
theorem Unfit.not_occurs {e d : Datum} (h : e.Unfit) (hd : d.isScalar = true) : ¬ Occurs e d := by
  intro hoccurs
  rw [hoccurs.eq_of_isScalar hd] at h
  cases h <;> exact absurd hd (by simp [isScalar])

/-- Something unfit in a list is in one of its items. -/
theorem exists_unfit_list_iff (ds : List Datum) :
    (∃ e, Occurs e (list ds) ∧ e.Unfit) ↔ ∃ d ∈ ds, ∃ e, Occurs e d ∧ e.Unfit := by
  constructor
  · rintro ⟨e, hoccurs, hunfit⟩
    -- A list itself fits, so it is in an item.
    cases hoccurs with
    | self => cases hunfit
    | item d _ hd hoccurs => exact ⟨d, hd, e, hoccurs, hunfit⟩
  · rintro ⟨d, hd, e, hoccurs, hunfit⟩
    exact ⟨e, .item d ds hd hoccurs, hunfit⟩

/-- In a map it is a key that may not be one, or it is in a value. -/
theorem exists_unfit_map_iff (ps : List (Datum × Datum)) :
    (∃ e, Occurs e (map ps) ∧ e.Unfit) ↔
      ∃ p ∈ ps, p.1.isKey = false ∨ ∃ e, Occurs e p.2 ∧ e.Unfit := by
  constructor
  · rintro ⟨e, hoccurs, hunfit⟩
    cases hoccurs with
    | self =>
        cases hunfit with
        | key k d _ hp hkey => exact ⟨(k, d), hp, Or.inl hkey⟩
    | key k d _ hp hoccurs =>
        -- What may stand as a key is a scalar, so this is no such key.
        refine ⟨(k, d), hp, Or.inl ?_⟩
        by_contra hkey
        exact hunfit.not_occurs (isScalar_of_isKey k (Bool.eq_true_of_not_eq_false hkey)) hoccurs
    | value k d _ hp hoccurs => exact ⟨(k, d), hp, Or.inr ⟨e, hoccurs, hunfit⟩⟩
  · rintro ⟨⟨k, d⟩, hp, hkey | ⟨e, hoccurs, hunfit⟩⟩
    · exact ⟨map ps, .self, .key k d ps hp hkey⟩
    · exact ⟨e, .value k d ps hp hoccurs, hunfit⟩

end Datum

/-! ## Keys -/

namespace Key

/-- The key that a datum denotes: an integer in range is an index and one beyond it the name of its
    digits, a boolean is the name of its text, and a string denotes what its text does. -/
inductive Names : Datum → Key → Prop
  | index (i : Int64) : Names (.integer i.toInt) (.index i)
  | digits (i : Int) : (∀ j : Int64, j.toInt ≠ i) →
      Names (.integer i) (.name (String.ofList (Decimal.ofInt i)))
  | yes : Names (.bool true) (.name "true")
  | no : Names (.bool false) (.name "false")
  | text (s : String) : Names (.string s) (parse s)

theorem ofDatum?_eq_some_iff (d : Datum) (key : Key) : ofDatum? d = some key ↔ Names d key := by
  constructor
  · intro h
    cases d with
    | integer i =>
        rw [ofDatum?] at h
        split at h
        · rename_i j hj
          rw [← Option.some.inj h, (Decimal.int64?_eq_some_iff i j).mp hj]
          exact .index j
        · rename_i hnone
          rw [← Option.some.inj h]
          exact .digits i ((Decimal.int64?_eq_none_iff i).mp hnone)
    | bool b =>
        rw [← Option.some.inj h]
        cases b
        · exact .no
        · exact .yes
    | string s =>
        rw [← Option.some.inj h]
        exact .text s
    | _ => exact absurd h (by simp [ofDatum?])
  · intro h
    cases h with
    | index i => rw [ofDatum?, (Decimal.int64?_eq_some_iff _ i).mpr rfl]
    | digits i hi => rw [ofDatum?, (Decimal.int64?_eq_none_iff i).mpr hi]
    | _ => rfl

theorem ofDatum?_eq_none_iff (d : Datum) : ofDatum? d = none ↔ d.isKey = false := by
  cases d with
  | integer i =>
      rw [ofDatum?]
      split <;> simp [Datum.isKey]
  | _ => simp [ofDatum?, Datum.isKey]

end Key

namespace Value

/-! ## What data denote -/

/-- The value that a datum denotes. An integer beyond 64 bits denotes a float. The items of a list
    are numbered. In a map each key stands where it came first and holds the last value that came
    under it. -/
inductive Denotes : Datum → Value → Prop
  | null : Denotes .null null
  | bool (b : Bool) : Denotes (.bool b) (bool b)
  | int (i : Int64) : Denotes (.integer i.toInt) (int i)
  | large (i : Int) : (∀ j : Int64, j.toInt ≠ i) →
      Denotes (.integer i) (float (Binary64.ofInt i))
  | float (x : Binary64) : Denotes (.float x) (float x)
  | string (s : String) : Denotes (.string s) (string s)
  | list (ds : List Datum) (c : List (Key × Value)) :
      Entries.keys c = (List.range ds.length).map (fun n => .index (Int64.ofNat n)) →
      List.Forall₂ Denotes ds (Entries.values c) → Denotes (.list ds) (container c)
  | map (ps : List (Datum × Datum)) (es c : List (Key × Value)) :
      List.Forall₂ Key.Names (ps.map Prod.fst) (Entries.keys es) →
      List.Forall₂ Denotes (ps.map Prod.snd) (Entries.values es) →
      Entries.keys c = (Entries.keys es).eraseDups →
      (∀ e ∈ c, ∃ front back, es = front ++ e :: back ∧ e.1 ∉ Entries.keys back) →
      Denotes (.map ps) (container c)

/-! ## Trying the kinds in order -/

def asNull? : Datum → Option Value
  | .null => some null
  | _ => none

def asBool? : Datum → Option Value
  | .bool b => some (bool b)
  | _ => none

/-- An integer in range. -/
def asInt? : Datum → Option Value
  | .integer i => (Decimal.int64? i).map int
  | _ => none

/-- A float, or any integer as one. -/
def asFloat? : Datum → Option Value
  | .float x => some (float x)
  | .integer i => some (float (Binary64.ofInt i))
  | _ => none

def asString? : Datum → Option Value
  | .string s => some (string s)
  | _ => none

/-- The kinds of scalar in the order in which they are tried. -/
def scalarKinds : List (Datum → Option Value) :=
  [asNull?, asBool?, asInt?, asFloat?, asString?]

mutual

/-- The value of a datum as the first kind that takes it. A list or a map can only be a container,
    which is tried when all scalars have failed, and fails if anything in it does. -/
def firstFit? (d : Datum) : Option Value :=
  (scalarKinds.findSome? (· d)).or
    (match d with
    | .list items => (firstFits? items).map sequence
    | .map pairs => (firstFitPairs? pairs).map fun ps => container (Entries.collect ps)
    | _ => none)

def firstFits? : List Datum → Option (List Value)
  | [] => some []
  | d :: ds => (firstFit? d).bind fun v => (firstFits? ds).map (v :: ·)

def firstFitPairs? : List (Datum × Datum) → Option (List (Key × Value))
  | [] => some []
  | (k, d) :: ps =>
    (Key.ofDatum? k).bind fun key =>
      (firstFit? d).bind fun v => (firstFitPairs? ps).map ((key, v) :: ·)

end

mutual

/-- Trying the kinds in order comes to going by the form of the datum. -/
theorem firstFit?_eq_ofDatum? : ∀ d : Datum, firstFit? d = ofDatum? d
  | .null | .bool _ | .float _ | .string _ | .tagged _ _ => rfl
  | .integer i => by
    -- In range it is an integer before it can be a float.
    simp only [firstFit?, ofDatum?, ofInteger, scalarKinds, List.findSome?, asNull?, asBool?,
      asInt?, asFloat?]
    cases Decimal.int64? i <;> rfl
  | .list ds => by
    rw [firstFit?, ofDatum?, firstFits?_eq_ofData? ds]
    rfl
  | .map ps => by
    rw [firstFit?, ofDatum?, firstFitPairs?_eq_ofPairs? ps]
    rfl

theorem firstFits?_eq_ofData? : ∀ ds : List Datum, firstFits? ds = ofData? ds
  | [] => rfl
  | d :: ds => by rw [firstFits?, ofData?, firstFit?_eq_ofDatum? d, firstFits?_eq_ofData? ds]

theorem firstFitPairs?_eq_ofPairs? : ∀ ps : List (Datum × Datum), firstFitPairs? ps = ofPairs? ps
  | [] => rfl
  | (k, d) :: ps => by
    rw [firstFitPairs?, ofPairs?, firstFit?_eq_ofDatum? d, firstFitPairs?_eq_ofPairs? ps]

end

/-! ## Decoding items and pairs -/

/-- Items have values if each has one. -/
theorem ofData?_eq_some_iff (ds : List Datum) (vs : List Value) :
    ofData? ds = some vs ↔ List.Forall₂ (fun d v => ofDatum? d = some v) ds vs := by
  induction ds generalizing vs with
  | nil =>
      rw [ofData?, Option.some.injEq, List.forall₂_nil_left_iff]
      exact eq_comm
  | cons d ds ih =>
      simp only [ofData?, Option.bind_eq_some_iff, Option.map_eq_some_iff, ih,
        List.forall₂_cons_left_iff]
      constructor
      · rintro ⟨v, hv, us, hus, rfl⟩
        exact ⟨v, us, hv, hus, rfl⟩
      · rintro ⟨v, us, hv, hus, rfl⟩
        exact ⟨v, hv, us, hus, rfl⟩

/-- Pairs are decoded if each key is one and each value has one. -/
theorem ofPairs?_eq_some_iff (ps : List (Datum × Datum)) (es : List (Key × Value)) :
    ofPairs? ps = some es ↔
      List.Forall₂ (fun k key => Key.ofDatum? k = some key) (ps.map Prod.fst) (Entries.keys es) ∧
        List.Forall₂ (fun d v => ofDatum? d = some v) (ps.map Prod.snd) (Entries.values es) := by
  induction ps generalizing es with
  | nil =>
      rw [ofPairs?, Option.some.injEq, List.map_nil, List.map_nil, List.forall₂_nil_left_iff,
        List.forall₂_nil_left_iff, Entries.keys, Entries.values, List.map_eq_nil_iff,
        List.map_eq_nil_iff, and_self_iff]
      exact eq_comm
  | cons p ps ih =>
      rcases p with ⟨k, d⟩
      simp only [ofPairs?, Option.bind_eq_some_iff, Option.map_eq_some_iff, ih]
      constructor
      · rintro ⟨key, hkey, v, hv, rest, ⟨hkeys, hvalues⟩, rfl⟩
        exact ⟨.cons hkey hkeys, .cons hv hvalues⟩
      · rintro ⟨hkeys, hvalues⟩
        -- As many keys as data, so there is a first pair to take apart.
        cases es with
        | nil => exact absurd hkeys (by simp [Entries.keys])
        | cons e es =>
            rcases e with ⟨key, v⟩
            rcases List.forall₂_cons.mp hkeys with ⟨hkey, hkeys⟩
            rcases List.forall₂_cons.mp hvalues with ⟨hv, hvalues⟩
            exact ⟨key, hkey, v, hv, es, ⟨hkeys, hvalues⟩, rfl⟩

theorem ofData?_eq_none_iff (ds : List Datum) :
    ofData? ds = none ↔ ∃ d ∈ ds, ofDatum? d = none := by
  induction ds with
  | nil => simp [ofData?]
  | cons d ds ih =>
      rw [ofData?, List.exists_mem_cons_iff, ← ih]
      cases ofDatum? d <;> simp

theorem ofPairs?_eq_none_iff (ps : List (Datum × Datum)) :
    ofPairs? ps = none ↔ ∃ p ∈ ps, Key.ofDatum? p.1 = none ∨ ofDatum? p.2 = none := by
  induction ps with
  | nil => simp [ofPairs?]
  | cons p ps ih =>
      rw [ofPairs?, List.exists_mem_cons_iff, ← ih]
      cases Key.ofDatum? p.1 <;> cases ofDatum? p.2 <;> simp

/-! ## What has no value -/

theorem ofDatum?_ne_none_of_isScalar (d : Datum) (h : d.isScalar = true) : ofDatum? d ≠ none := by
  cases d with
  | list _ | map _ | tagged _ _ => exact absurd h (by simp [Datum.isScalar])
  | _ => simp [ofDatum?]

/-- A datum has no value if something in it, at whatever depth, is unfit. -/
theorem ofDatum?_eq_none_iff (d : Datum) :
    ofDatum? d = none ↔ ∃ e, Datum.Occurs e d ∧ e.Unfit := by
  induction d using Datum.induction with
  | scalar d hd =>
      refine ⟨fun h => absurd h (ofDatum?_ne_none_of_isScalar d hd), ?_⟩
      rintro ⟨e, hoccurs, hunfit⟩
      exact absurd hoccurs (hunfit.not_occurs hd)
  | list ds ih =>
      rw [ofDatum?, Option.map_eq_none_iff, ofData?_eq_none_iff, Datum.exists_unfit_list_iff]
      exact exists_congr fun d => and_congr_right (ih d)
  | map ps ih =>
      rw [ofDatum?, Option.map_eq_none_iff, ofPairs?_eq_none_iff, Datum.exists_unfit_map_iff]
      exact exists_congr fun p => and_congr_right fun hp =>
        or_congr (Key.ofDatum?_eq_none_iff p.1) (ih p hp).2
  | tagged tag d _ => exact ⟨fun _ => ⟨_, .self, .tagged tag d⟩, fun _ => rfl⟩

/-! ## What the others denote -/

/-- An integer denotes one value, and that is what it is decoded to. -/
theorem ofInteger_eq_iff (i : Int) (v : Value) : ofInteger i = v ↔ Denotes (.integer i) v := by
  constructor
  · rintro rfl
    rw [ofInteger]
    split
    · rename_i j hj
      rw [(Decimal.int64?_eq_some_iff i j).mp hj]
      exact .int j
    · rename_i hnone
      exact .large i ((Decimal.int64?_eq_none_iff i).mp hnone)
  · intro h
    cases h with
    | int i => rw [ofInteger, (Decimal.int64?_eq_some_iff _ i).mpr rfl]
    | large _ hi => rw [ofInteger, (Decimal.int64?_eq_none_iff i).mpr hi]

/-- Lists go together under relations that agree on the members of one of them. -/
theorem forall₂_iff_of_mem {α β : Type} {R S : α → β → Prop} (as : List α) (bs : List β)
    (h : ∀ a ∈ as, ∀ b, R a b ↔ S a b) : List.Forall₂ R as bs ↔ List.Forall₂ S as bs := by
  -- Either way the members that go together are among those of the first list.
  constructor
  · intro hR
    exact ((List.forall₂_and_left as bs).mpr ⟨h, hR⟩).imp fun a b hab => (hab.1 b).mp hab.2
  · intro hS
    exact ((List.forall₂_and_left as bs).mpr ⟨h, hS⟩).imp fun a b hab => (hab.1 b).mpr hab.2

/-- A list has the value it denotes, if its items do. -/
theorem ofDatum?_list_eq_some_iff (ds : List Datum) (v : Value)
    (hitems : ∀ d ∈ ds, ∀ w, ofDatum? d = some w ↔ Denotes d w) :
    ofDatum? (.list ds) = some v ↔ Denotes (.list ds) v := by
  have hdecoded (vs : List Value) : ofData? ds = some vs ↔ List.Forall₂ Denotes ds vs :=
    (ofData?_eq_some_iff ds vs).trans (forall₂_iff_of_mem ds vs hitems)
  simp only [ofDatum?, Option.map_eq_some_iff, hdecoded]
  constructor
  · rintro ⟨vs, hvs, rfl⟩
    rw [← Entries.values_ofValues vs] at hvs
    refine .list ds _ ?_ hvs
    rw [Entries.keys_ofValues, hvs.length_eq, Entries.values_ofValues]
  · intro h
    cases h with
    | list _ c hkeys hvalues =>
        -- The keys are those of a sequence, so there is only one order of the values.
        refine ⟨_, hvalues, congrArg container (Entries.eq_ofValues c ?_).symm⟩
        rw [hkeys, hvalues.length_eq, Entries.values, List.length_map]

/-- A map has the value it denotes, if what is under its keys does. -/
theorem ofDatum?_map_eq_some_iff (ps : List (Datum × Datum)) (v : Value)
    (hvalues : ∀ p ∈ ps, ∀ w, ofDatum? p.2 = some w ↔ Denotes p.2 w) :
    ofDatum? (.map ps) = some v ↔ Denotes (.map ps) v := by
  have hdecoded (es : List (Key × Value)) : ofPairs? ps = some es ↔
      List.Forall₂ Key.Names (ps.map Prod.fst) (Entries.keys es) ∧
        List.Forall₂ Denotes (ps.map Prod.snd) (Entries.values es) := by
    rw [ofPairs?_eq_some_iff]
    refine and_congr (forall₂_iff_of_mem _ _ fun k _ => Key.ofDatum?_eq_some_iff k)
      (forall₂_iff_of_mem _ _ fun d hd => ?_)
    rcases List.mem_map.mp hd with ⟨p, hp, rfl⟩
    exact hvalues p hp
  simp only [ofDatum?, Option.map_eq_some_iff, hdecoded]
  constructor
  · rintro ⟨es, ⟨hnames, hdenoted⟩, rfl⟩
    refine .map ps es _ hnames hdenoted (Entries.keys_collect es) fun e he => ?_
    rw [← Entries.get?_collect_eq_some_iff]
    exact Entries.get?_of_mem _ (Entries.distinct_collect es) e he
  · intro h
    cases h with
    | map _ es c hnames hdenoted hkeys hlast =>
        -- The places and the last values fix the map that the pairs are collected into.
        exact ⟨es, ⟨hnames, hdenoted⟩,
          congrArg container (Entries.collect_unique es c hkeys hlast).symm⟩

/-- What has a value has the one it denotes. -/
theorem ofDatum?_eq_some_iff (d : Datum) (v : Value) : ofDatum? d = some v ↔ Denotes d v := by
  induction d using Datum.induction generalizing v with
  | scalar d hd =>
      cases d with
      | integer i => rw [ofDatum?, Option.some.injEq, ofInteger_eq_iff]
      | list _ | map _ | tagged _ _ => exact absurd hd (by simp [Datum.isScalar])
      | null | bool b | float x | string s =>
          -- Of these each denotes itself.
          rw [ofDatum?, Option.some.injEq]
          constructor
          · rintro rfl
            constructor
          · intro h
            cases h
            rfl
  | list ds ih => exact ofDatum?_list_eq_some_iff ds v ih
  | map ps ih => exact ofDatum?_map_eq_some_iff ps v fun p hp => (ih p hp).2
  | tagged tag d ih =>
      constructor
      · intro h
        exact absurd h (by simp [ofDatum?])
      · intro h
        cases h

/-- Decoding takes a datum unless something in it is unfit, gives what the datum denotes, and comes
    to trying one kind of value after the other. -/
theorem decoding_is_exact (d : Datum) :
    firstFit? d = ofDatum? d ∧
      (ofDatum? d = none ↔ ∃ e, Datum.Occurs e d ∧ e.Unfit) ∧
      ∀ v, ofDatum? d = some v ↔ Denotes d v :=
  ⟨firstFit?_eq_ofDatum? d, ofDatum?_eq_none_iff d, ofDatum?_eq_some_iff d⟩

/-- Keys of different kinds can come down to one, which keeps its place. -/
example : firstFit? (.map [(.integer 0, .null), (.bool true, .integer 1), (.string "0", .list [])])
    = some (container [(.index 0, container []), (.name "true", int 1)]) := by
  rfl

end Value

end DocTree
