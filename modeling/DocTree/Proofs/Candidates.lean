import Mathlib
import DocTree.Proofs.Decoding
import DocTree.Proofs.Flatten
import DocTree.Proofs.Path
import DocTree.Proofs.Vantage

/-!
# Candidates of a Path with Wildcards

Which concrete paths a path with wildcards stands for. A candidate has the segments of
the path, with keys in the place of the wildcards. That is so before the segments are
joined; a key may hold the separator, and then the text comes apart differently. A
candidate survives only if it comes apart into as many segments as the path. If the
separator is one character, that means that it comes apart where it was joined.

No candidate is listed twice then, as long as no two keys of a level have the same text.
A vantage is *lawful* if its keys are distinct and canonical and its value is well-keyed,
and that passes on to its places and to flattened levels.

## Main definitions

* `Vantage.Lawful`: distinct canonical keys, seen and below.

## Theorems

* `mem_combinations_iff`, `nodup_combinations`: the ways to choose.
* `forall₂_choices`: only a wildcard leaves a choice.
* `map_fst_survivors`, `mem_survivors`: what a survivor is.
* `segments_of_mem_survivors`: a survivor has the segments of the path but for wildcards.
* `lawful_below`, `lawful_flatten`: what a lawful vantage leads to is lawful.
* `nodup_survivors`: from a lawful vantage no survivor is listed twice.
-/

namespace DocTree

namespace Forest

variable {α : Type}

/-- A combination takes one option at each place. -/
theorem mem_combinations_iff (options : List (List α)) (as : List α) :
    as ∈ combinations options ↔ List.Forall₂ (· ∈ ·) as options := by
  -- Induction on the places, with one option taken at each.
  induction options generalizing as with
  | nil => simp [combinations]
  | cons o options ih =>
      cases as with
      | nil => simp [combinations]
      | cons a as => simp [combinations, ih]

/-- If no place offers an option twice, no combination comes twice. -/
theorem nodup_combinations (options : List (List α)) (h : ∀ o ∈ options, o.Nodup) :
    (combinations options).Nodup := by
  induction options with
  | nil => exact List.nodup_singleton []
  | cons o options ih =>
      rw [List.forall_mem_cons] at h
      rw [combinations, List.nodup_flatMap]
      refine ⟨fun a _ => (ih h.2).map (List.cons_injective), ?_⟩
      -- Combinations that begin differently are different.
      refine h.1.imp fun {a b} hab => ?_
      rw [Function.onFun, List.disjoint_left]
      intro as hasa hasb
      rcases List.mem_map.mp hasa with ⟨xs, _, rfl⟩
      rcases List.mem_map.mp hasb with ⟨ys, _, heq⟩
      exact hab (List.cons.inj heq).1.symm

end Forest

namespace Vantage

/-- Only a wildcard leaves a choice. -/
theorem forall₂_choices (frontier : Option (Vantage × List Key)) (segments : List String) :
    List.Forall₂ (fun raw options => raw ≠ Path.wildcard → options = [raw]) segments
      (choices frontier segments) := by
  -- Induction on the segments. The frontier decides what a wildcard stands for, and is no matter
  -- here.
  induction segments generalizing frontier with
  | nil => exact .nil
  | cons raw rest ih =>
      rw [choices]
      split
      · rename_i hraw
        split
        · exact .cons (fun hne => absurd hraw hne) (ih _)
        · exact .cons (fun hne => absurd hraw hne) (ih _)
      · exact .cons (fun _ => rfl) (ih _)

/-- A concrete path has the segments of the path but for wildcards. -/
theorem forall₂_of_mem_combinations (frontier : Option (Vantage × List Key))
    (segments choice : List String)
    (h : choice ∈ Forest.combinations (choices frontier segments)) :
    List.Forall₂ (fun raw s => raw ≠ Path.wildcard → s = raw) segments choice := by
  rw [Forest.mem_combinations_iff] at h
  have hoptions := forall₂_choices frontier segments
  generalize choices frontier segments = options at h hoptions
  induction hoptions generalizing choice with
  | nil =>
      cases h
      exact .nil
  | cons hraw _ ih =>
      cases h with
      | cons hs hrest =>
          refine .cons (fun hne => ?_) (ih _ hrest)
          rw [hraw hne] at hs
          exact List.mem_singleton.mp hs

variable (t : Vantage)

/-- The survivors are those of the candidates that lead somewhere. -/
theorem map_fst_survivors (path : Path) :
    (t.survivors path).map Prod.fst
      = (t.candidates path).filter fun candidate => (t.attempt? path candidate).isSome := by
  rw [survivors, List.map_filterMap, ← List.filterMap_eq_filter]
  refine List.filterMap_congr fun candidate _ => ?_
  cases htry : t.attempt? path candidate <;> simp [Option.guard, htry]

/-- A survivor is made of segments that differ from those of the path in wildcards only, and leads
    to the value that it is listed with. -/
theorem mem_survivors (path : Path) (candidate : String) (v : Value)
    (h : (candidate, v) ∈ t.survivors path) :
    (∃ segments, candidate = Path.join segments path.separator ∧
      List.Forall₂ (fun raw s => raw ≠ Path.wildcard → s = raw) path.segments segments) ∧
    (Path.parse candidate path.separator).segments.length = path.length ∧
    ∃ place, t.walk? [] (Path.parse candidate path.separator).segments = some place ∧
      v = (t.below place).value := by
  rw [survivors, List.mem_filterMap] at h
  rcases h with ⟨candidate', hmem, htry⟩
  rw [Option.map_eq_some_iff] at htry
  rcases htry with ⟨place, htry, heq⟩
  rw [Prod.mk.injEq] at heq
  rcases heq with ⟨rfl, rfl⟩
  rw [attempt?] at htry
  split at htry
  · rename_i hlength
    refine ⟨?_, hlength, place, htry, rfl⟩
    rw [candidates, List.mem_map] at hmem
    rcases hmem with ⟨segments, hsegments, rfl⟩
    exact ⟨segments, rfl, forall₂_of_mem_combinations _ _ _ hsegments⟩
  · exact absurd htry (by simp)

/-- For a separator of one character, a survivor splits into the segments of the path, but for
    wildcards. -/
theorem segments_of_mem_survivors (path : Path) (c : Char)
    (hseparator : path.separator.toList = [c]) (hne : path.segments ≠ []) (candidate : String)
    (v : Value) (h : (candidate, v) ∈ t.survivors path) :
    List.Forall₂ (fun raw s => raw ≠ Path.wildcard → s = raw) path.segments
      (Path.parse candidate path.separator).segments := by
  rcases t.mem_survivors path candidate v h with ⟨⟨segments, rfl, hsegments⟩, hlength, _⟩
  have hlength' : path.segments.length = segments.length := hsegments.length_eq
  rwa [Path.segments_join hseparator segments ?_ (hlength.trans hlength')]
  rintro rfl
  exact hne (List.length_eq_zero_iff.mp hlength')

/-! ## Lawful vantages -/

/-- The keys that are seen are distinct and canonical, and so are those below. -/
structure Lawful : Prop where
  nodup : t.keys.Nodup
  canonical : ∀ key ∈ t.keys, key.Canonical
  wellKeyed : t.value.WellKeyed
  fits : t.value.Fits

variable {t}

/-- A well-keyed value that is seen as it is makes a lawful vantage. -/
theorem lawful_ofValue (v : Value) (hv : v.WellKeyed) (hfits : v.Fits) : (ofValue v).Lawful := by
  have hkeys : v.keys.Nodup ∧ ∀ key ∈ v.keys, key.Canonical := by
    cases v with
    | container c => exact ((Value.wellKeyed_container_iff c).mp hv).1
    | _ => simp [Value.keys, Value.entries?]
  exact ⟨hkeys.1, hkeys.2, hv, hfits⟩

/-- The places below a lawful vantage are lawful. -/
theorem lawful_below (h : t.Lawful) (place : List Key) : (t.below place).Lawful := by
  rw [below]
  split
  · exact h
  · -- Where there is no slot one sees null, which has no keys at all.
    cases hlookup : t.value.lookup place with
    | none => exact lawful_ofValue .null (Value.keyedBy_of_scalar _ rfl) (by decide)
    | some u =>
        exact lawful_ofValue u (Value.keyedBy_lookup _ u place h.wellKeyed hlookup)
          (Value.fits_of_lookup _ u place h.fits hlookup)

/-- The slot of a child, read from the place. -/
theorem lookup_concat (place : List Key) (key : Key) :
    t.value.lookup (place ++ [key]) = (t.below place).value.child? key := by
  rw [value_below, Value.lookup_append]
  cases t.value.lookup place with
  | none => rfl
  | some u =>
      rw [Option.bind_some, Option.getD_some, Value.lookup]
      cases u.child? key <;> rfl

/-- The values of the children are those under the keys that are seen. -/
theorem values_children (place : List Key) :
    ((t.children place).map fun c => (t.below c).value)
      = (t.below place).keys.filterMap fun key => (t.below place).value.child? key := by
  rw [children, List.map_filterMap]
  refine List.filterMap_congr fun key hkey => ?_
  have hlookup := t.lookup_concat place key
  rw [child?]
  cases hchild : (t.below place).value.child? key with
  | none => rw [hlookup, hchild, if_neg (by simp), Option.map_none]
  | some u =>
      rw [hlookup, hchild, if_pos ⟨hkey, rfl⟩, Option.map_some, value_below, hlookup, hchild,
        Option.getD_some]

/-- A flattened level is seen as it is, with distinct canonical keys. -/
theorem lawful_flatten (h : t.Lawful) (place : List Key) :
    (ofValue (.container (t.flatten place))).Lawful := by
  have hbelow := lawful_below h place
  -- A flattened level is smaller than the value, so it fits when that does.
  have hsize := (Forest.entriesSize_foldl_flattenInto _).trans_lt
    (Value.sum_size_child?_lt (t.below place).value (t.below place).keys hbelow.nodup)
  rw [← values_children] at hsize
  have hfits : (Value.container (t.flatten place)).Fits := by
    have := hbelow.fits
    rw [Value.Fits] at this ⊢
    rw [Value.size, flatten]
    omega
  refine lawful_ofValue _ ?_ hfits
  refine Forest.keyedBy_foldl_flattenInto Key.covers_canonical _ (fun v hv => ?_)
    (Value.length_le_of_fits _ hfits)
  rcases List.mem_map.mp hv with ⟨c, _, rfl⟩
  exact (lawful_below h c).wellKeyed

/-! ## Repetitions -/

/-- Along a lawful frontier no choice is offered twice. -/
theorem nodup_choices (frontier : Option (Vantage × List Key))
    (h : ∀ e ∈ frontier, e.1.Lawful) (segments : List String) :
    ∀ options ∈ choices frontier segments, options.Nodup := by
  -- Induction on the segments along a frontier that stays lawful.
  induction segments generalizing frontier with
  | nil => simp [choices]
  | cons raw rest ih =>
      rw [choices]
      split
      · split
        · rename_i t place hfilter
          rcases Option.filter_eq_some_iff.mp hfilter with ⟨hfrontier, _⟩
          have hlawful := h (t, place) hfrontier
          have hbelow := lawful_below hlawful place
          refine List.forall_mem_cons.mpr ⟨?_, ih _ fun e he => ?_⟩
          · exact Tree.nodup_map_text _ hbelow.nodup hbelow.canonical
          · rw [Option.mem_some] at he
            rw [← he]
            exact lawful_flatten hlawful place
        · exact List.forall_mem_cons.mpr ⟨List.nodup_nil, ih _ h⟩
      · refine List.forall_mem_cons.mpr ⟨List.nodup_singleton raw, ih _ fun e he => ?_⟩
        simp only [Option.mem_def, Option.bind_eq_some_iff, Option.map_eq_some_iff] at he
        rcases he with ⟨e', he', c, _, rfl⟩
        exact h e' he'

/-- From a lawful vantage, and with a separator of one character, no survivor is listed twice. -/
theorem nodup_survivors (h : t.Lawful) (path : Path) (c : Char)
    (hseparator : path.separator.toList = [c]) (hne : path.segments ≠ []) :
    ((t.survivors path).map Prod.fst).Nodup := by
  have hcombinations : (Forest.combinations (choices (some (t, [])) path.segments)).Nodup :=
    Forest.nodup_combinations _
      (nodup_choices _ (fun e he => by rw [← Option.mem_some.mp he]; exact h) _)
  rw [map_fst_survivors, candidates, List.filter_map]
  -- What was joined can be read off a survivor, so different choices are different survivors.
  have hback : ∀ segments ∈ (Forest.combinations (choices (some (t, [])) path.segments)).filter
      ((fun candidate => (t.attempt? path candidate).isSome) ∘ fun segments =>
        Path.join segments path.separator),
      (Path.parse (Path.join segments path.separator) path.separator).segments = segments := by
    intro segments hsegments
    rw [List.mem_filter, Function.comp_apply, Option.isSome_iff_exists] at hsegments
    rcases hsegments with ⟨hmem, place, htry⟩
    have hlength := (forall₂_of_mem_combinations _ _ _ hmem).length_eq
    rw [attempt?] at htry
    split at htry
    · rename_i hcount
      refine Path.segments_join hseparator segments ?_ (hcount.trans hlength)
      rintro rfl
      exact hne (List.length_eq_zero_iff.mp hlength)
    · exact absurd htry (by simp)
  refine (hcombinations.filter _).map_on fun a ha b hb heq => ?_
  rw [← hback a ha, ← hback b hb, heq]

end Vantage

end DocTree
