import Mathlib
import DocTree.Proofs.Level
import DocTree.Proofs.Reach

/-!
# Two Adjacent Wildcards

The path of two wildcards asks for the grandchildren. Its candidates combine the keys that
are seen with the keys of a level, and most of them name nothing: a key of the level may
belong to another child, or be an index that no child has. A candidate survives exactly
if its two keys are a location, so what is left is one survivor for each slot two keys
further down.

That none of these is missed needs the level to have all keys of all children, so no
child may leave out an index. That none is listed twice needs less than distinct keys of
the level: it is enough that no key comes twice that any child can have.

## Main definitions

* `Vantage.Legible`: the keys in question mean nothing else in a path, and no child leaves
  out an index.

## Theorems

* `plain_index`: an index is no selector clause.
* `isSome_reach?_pair`: where two keys lead.
* `candidates_of_pair`: the candidates.
* `survivors_of_pair`: the survivors, in order.
* `mem_survivors_of_pair`, `nodup_survivors_of_pair`: one for each grandchild.
-/

namespace DocTree

/-! ## Indices are plain -/

namespace Segment

/-- A clause ends in a parenthesis. -/
theorem clauseParts?_concat (cs : List Char) (c : Char) (h : c ≠ ')') :
    clauseParts? (cs ++ [c]) = none := by
  simp only [clauseParts?, List.reverse_append, List.reverse_singleton, List.singleton_append]
  split
  · rename_i heq
    exact absurd (List.cons.inj heq).1 h
  · rfl

end Segment

/-- An index is no selector clause, as it ends in a digit. -/
theorem Key.plain_index (i : Int64) : (Segment.parse (Key.index i).text).clause = none := by
  have hlast : ∃ cs c, Decimal.ofInt i.toInt = cs ++ [c] ∧ c.isDigit = true := by
    have hdigits : ∀ n, ∃ cs c, Decimal.ofNat n = cs ++ [c] ∧ c.isDigit = true := by
      intro n
      rcases (Decimal.ofNat n).eq_nil_or_concat with hnil | ⟨cs, c, hconcat⟩
      · exact absurd hnil Nat.toDigits_ne_nil
      · refine ⟨cs, c, by rw [hconcat, List.concat_eq_append], ?_⟩
        exact Decimal.isDigit_of_mem_ofNat n c (by simp [hconcat])
    cases i.toInt with
    | ofNat n => exact hdigits n
    | negSucc n =>
        rcases hdigits (n + 1) with ⟨cs, c, hconcat, hc⟩
        exact ⟨'-' :: cs, c, by rw [Decimal.ofInt, hconcat, List.cons_append], hc⟩
  rcases hlast with ⟨cs, c, hconcat, hc⟩
  have hparenthesis : c ≠ ')' := by
    rintro rfl
    exact absurd hc (by decide)
  rw [Segment.parse, Key.text, String.toList_ofList, hconcat,
    Segment.clauseParts?_concat cs c hparenthesis]
  rfl

theorem Forest.combinations_of_pair {α : Type} (as bs : List α) :
    combinations [as, bs] = as.flatMap fun a => bs.map fun b => [a, b] := by
  have hsingle : combinations [bs] = bs.map fun b => [b] := combinations_of_single [] [] bs
  rw [combinations, hsingle]
  simp only [List.map_map, Function.comp_def]

namespace Vantage

/-- The keys that are seen, and those of the containers under them, mean nothing else in a path,
    and none of these containers leaves out an index. -/
structure Legible (t : Vantage) (separator : Char) : Prop where
  keys : ∀ key ∈ t.keys, key.Unambiguous separator
  below : ∀ key ∈ t.keys, ∀ c, t.value.child? key = some (.container c) →
    (∀ k ∈ Entries.keys c, k.Unambiguous separator) ∧ Key.Gapless (Entries.keys c)

variable {t : Vantage}

/-! ## Two keys -/

theorem lookup_pair (k₁ k₂ : Key) :
    t.value.lookup [k₁, k₂] = (t.value.child? k₁).bind fun u => u.child? k₂ := by
  simp only [Value.lookup, Option.bind_fun_some]

/-- A slot two keys further down is a slot of a container. -/
theorem exists_of_lookup_pair (k₁ k₂ : Key) (h : (t.value.lookup [k₁, k₂]).isSome) :
    ∃ c, t.value.child? k₁ = some (.container c) ∧ k₂ ∈ Entries.keys c := by
  rw [lookup_pair, Option.isSome_iff_exists] at h
  rcases h with ⟨w, hw⟩
  rcases Option.bind_eq_some_iff.mp hw with ⟨u, hu, hchild⟩
  rcases Value.exists_container_of_child? u w k₂ hchild with ⟨c, rfl, hget⟩
  exact ⟨c, hu, (Entries.isSome_get?_iff c k₂).mp (by rw [hget]; rfl)⟩

theorem isSome_lookup_pair (k₁ k₂ : Key) (c : Entries Value)
    (hc : t.value.child? k₁ = some (.container c)) (hk₂ : k₂ ∈ Entries.keys c) :
    (t.value.lookup [k₁, k₂]).isSome := by
  rw [lookup_pair, hc, Option.bind_some, Value.child?_container, Entries.isSome_get?_iff]
  exact hk₂

/-- Below a key that is seen, everything is seen as it is, so two keys lead on exactly if there is a
    slot. -/
theorem isSome_reach?_pair (k₁ k₂ : Key) (hseen : k₁ ∈ t.keys) (hcanonical₁ : k₁.Canonical)
    (hplain₁ : (Segment.parse k₁.text).clause = none) (hcanonical₂ : k₂.Canonical)
    (hplain₂ : (Segment.parse k₂.text).clause = none) :
    (t.reach? [] [k₁.text, k₂.text]).isSome = (t.value.lookup [k₁, k₂]).isSome := by
  have hbelow : t.child? [k₁] k₂ = (ofValue t.value).child? [k₁] k₂ := by
    simp only [child?, below, List.cons_ne_nil, if_false, ofValue]
  have hfirst : t.child? [] k₁ = if (t.value.lookup [k₁]).isSome then some [k₁] else none := by
    rw [child?, below, if_pos rfl, List.nil_append]
    exact if_congr (and_iff_right hseen) rfl rfl
  rw [reach?, get?_of_plain _ _ _ hplain₁, hcanonical₁, hfirst]
  by_cases hslot : (t.value.lookup [k₁]).isSome = true
  · rw [if_pos hslot, Option.bind_some, reach?, get?_of_plain _ _ _ hplain₂, hcanonical₂, hbelow,
      child?_ofValue, List.singleton_append]
    split
    · rename_i h
      exact h.symm
    · rename_i h
      exact (Bool.not_eq_true _ ▸ h).symm
  · -- Without the first slot there is no second.
    have hnone : t.value.lookup [k₁] = none := by simpa using hslot
    rw [if_neg hslot, Option.bind_none, ← List.singleton_append, Value.lookup_append, hnone]
    rfl

/-- From the text of such a location both keys can be read. -/
theorem Legible.segments_join {separator : String} {c : Char} (h : t.Legible c)
    (hseparator : separator.toList = [c]) (k₁ k₂ : Key) (hseen : k₁ ∈ t.keys)
    (hslot : (t.value.lookup [k₁, k₂]).isSome) :
    (Path.parse (Path.join [k₁.text, k₂.text] separator) separator).segments
        = [k₁.text, k₂.text] ∧
      k₁.Canonical ∧ k₂.Canonical := by
  have h₁ := h.keys k₁ hseen
  rcases exists_of_lookup_pair k₁ k₂ hslot with ⟨e, he, hmem⟩
  have h₂ := (h.below k₁ hseen e he).1 k₂ hmem
  refine ⟨Path.segments_join_of_not_mem hseparator _ (List.cons_ne_nil _ _) ?_, h₁.canonical,
    h₂.canonical⟩
  simpa using ⟨h₁.whole, h₂.whole⟩

/-! ## The level -/

/-- The values that a level is made of are those of the children. -/
theorem flatten_nil : t.flatten []
    = (t.keys.filterMap fun key => t.value.child? key).foldl Forest.flattenInto [] := by
  rw [flatten, values_children, below, if_pos rfl]

theorem mem_keys_flatten (c : Char) (h : t.Legible c) (k₁ k₂ : Key) (hseen : k₁ ∈ t.keys)
    (hslot : (t.value.lookup [k₁, k₂]).isSome) : k₂ ∈ Entries.keys (t.flatten []) := by
  rcases exists_of_lookup_pair k₁ k₂ hslot with ⟨e, he, hk₂⟩
  -- The container under the first key is one of those that are flattened, and leaves out no index.
  rw [flatten_nil]
  exact Forest.mem_keys_level _ e (List.mem_filterMap.mpr ⟨k₁, hseen, he⟩)
    (h.below k₁ hseen e he).2 k₂ hk₂

/-- Every key of a level is read back from its text. -/
theorem readable_of_mem_keys_flatten (c : Char) (h : t.Legible c) (key : Key)
    (hkey : key ∈ Entries.keys (t.flatten [])) :
    key.Canonical ∧ (Segment.parse key.text).clause = none := by
  rw [flatten_nil] at hkey
  -- A key of the level is an index of its own or a key of one of the containers.
  rcases Forest.mem_of_mem_keys_level _ key hkey with ⟨i, rfl⟩ | ⟨e, he, hmem⟩
  · exact ⟨Key.canonical_index i, Key.plain_index i⟩
  · rcases List.mem_filterMap.mp he with ⟨k, hk, hchild⟩
    have hunambiguous := (h.below k hk e hchild).1 key hmem
    exact ⟨hunambiguous.canonical, hunambiguous.plain⟩

/-! ## Candidates and survivors -/

theorem candidates_of_pair (path : Path)
    (hsegments : path.segments = [Path.wildcard, Path.wildcard])
    (hcontainer : t.isContainer = true) :
    t.candidates path = t.keys.flatMap fun k₁ => (Entries.keys (t.flatten [])).map fun k₂ =>
      Path.join [k₁.text, k₂.text] path.separator := by
  have hfirst : (some (t, [])).filter
      (fun e : Vantage × List Key => (e.1.below e.2).isContainer) = some (t, []) :=
    Option.filter_some_pos hcontainer
  -- The second wildcard stands for the keys of the level that the first one leads to.
  have hchoices : choices (some (t, [])) [Path.wildcard, Path.wildcard]
      = [t.keys.map Key.text, (Entries.keys (t.flatten [])).map Key.text] := by
    rw [choices, if_pos rfl, hfirst]
    rfl
  rw [candidates, hsegments, hchoices, Forest.combinations_of_pair, List.map_flatMap,
    List.flatMap_map]
  simp only [List.map_map, Function.comp_def]

/-- A candidate leads somewhere exactly if its keys are a location. -/
theorem isSome_attempt?_pair (path : Path) (c : Char) (hseparator : path.separator.toList = [c])
    (hsegments : path.segments = [Path.wildcard, Path.wildcard]) (hcoherent : t.Coherent)
    (h : t.Legible c) (k₁ k₂ : Key) (hk₁ : k₁ ∈ t.keys)
    (hk₂ : k₂ ∈ Entries.keys (t.flatten [])) :
    (t.attempt? path (Path.join [k₁.text, k₂.text] path.separator)).isSome
      = (t.value.lookup [k₁, k₂]).isSome := by
  have hplain₁ := h.keys k₁ hk₁
  rcases readable_of_mem_keys_flatten c h k₂ hk₂ with ⟨hcanonical₂, hplain₂⟩
  have hreach := isSome_reach?_pair k₁ k₂ hk₁ hplain₁.canonical hplain₁.plain hcanonical₂ hplain₂
  have hlength : path.length = 2 := by rw [Path.length, hsegments]; rfl
  rw [attempt?, hlength]
  by_cases hcount :
      (Path.parse (Path.join [k₁.text, k₂.text] path.separator) path.separator).segments.length = 2
  · rw [if_pos hcount, Path.segments_join hseparator _ (List.cons_ne_nil _ _) hcount,
      walk?_eq_reach? hcoherent, hreach]
  · -- Then the separator is in one of the keys, and the second is a key of no child.
    rw [if_neg hcount, Option.isSome_none, eq_comm, Bool.eq_false_iff]
    intro hslot
    rw [(h.segments_join hseparator k₁ k₂ hk₁ hslot).1] at hcount
    exact hcount rfl

/-- The survivors stand in the order of the keys that are seen, and behind each of them in the
    order of the level. -/
theorem survivors_of_pair (path : Path) (c : Char) (hseparator : path.separator.toList = [c])
    (hsegments : path.segments = [Path.wildcard, Path.wildcard]) (hcoherent : t.Coherent)
    (hcontainer : t.isContainer = true) (h : t.Legible c) :
    (t.survivors path).map Prod.fst = t.keys.flatMap fun k₁ =>
      ((Entries.keys (t.flatten [])).filter fun k₂ => (t.value.lookup [k₁, k₂]).isSome).map
        fun k₂ => Path.join [k₁.text, k₂.text] path.separator := by
  rw [map_fst_survivors, candidates_of_pair path hsegments hcontainer, List.filter_flatMap]
  refine List.flatMap_congr fun k₁ hk₁ => ?_
  rw [List.filter_map]
  refine congrArg _ (List.filter_congr fun k₂ hk₂ => ?_)
  exact isSome_attempt?_pair path c hseparator hsegments hcoherent h k₁ k₂ hk₁ hk₂

variable (path : Path) (c : Char) (hseparator : path.separator.toList = [c])
  (hsegments : path.segments = [Path.wildcard, Path.wildcard]) (hcoherent : t.Coherent)
  (hcontainer : t.isContainer = true) (h : t.Legible c)

include hseparator hsegments hcoherent hcontainer h

/-- There is a survivor for every slot two keys further down, and no other. -/
theorem mem_survivors_of_pair (p : String) :
    p ∈ (t.survivors path).map Prod.fst ↔
      ∃ k₁ ∈ t.keys, ∃ k₂, (t.value.lookup [k₁, k₂]).isSome ∧
        p = Path.join [k₁.text, k₂.text] path.separator := by
  rw [survivors_of_pair path c hseparator hsegments hcoherent hcontainer h]
  simp only [List.mem_flatMap, List.mem_map, List.mem_filter]
  constructor
  · rintro ⟨k₁, hk₁, k₂, ⟨_, hslot⟩, rfl⟩
    exact ⟨k₁, hk₁, k₂, hslot, rfl⟩
  · rintro ⟨k₁, hk₁, k₂, hslot, rfl⟩
    exact ⟨k₁, hk₁, k₂, ⟨mem_keys_flatten c h k₁ k₂ hk₁ hslot, hslot⟩, rfl⟩

/-- No survivor is listed twice. -/
theorem nodup_survivors_of_pair (hnodup : t.keys.Nodup) :
    ((t.survivors path).map Prod.fst).Nodup := by
  -- From what has been joined, both keys can be read.
  have hback : ∀ k₁ ∈ t.keys, ∀ k₂, (t.value.lookup [k₁, k₂]).isSome →
      ((Path.parse (Path.join [k₁.text, k₂.text] path.separator) path.separator).segments.map
        Key.parse) = [k₁, k₂] := by
    intro k₁ hk₁ k₂ hslot
    rcases h.segments_join hseparator k₁ k₂ hk₁ hslot with ⟨hsplit, h₁, h₂⟩
    rw [hsplit, List.map_cons, List.map_cons, h₁, h₂, List.map_nil]
  rw [survivors_of_pair path c hseparator hsegments hcoherent hcontainer h, List.nodup_flatMap]
  refine ⟨fun k₁ hk₁ => ?_, hnodup.imp_of_mem fun {a b} ha hb hab => ?_⟩
  · refine List.Nodup.map_on (fun k hk l hl heq => ?_) ?_
    · have hk' := hback k₁ hk₁ k (List.mem_filter.mp hk).2
      rw [heq, hback k₁ hk₁ l (List.mem_filter.mp hl).2] at hk'
      exact (List.cons.inj (List.cons.inj hk').2).1.symm
    · -- A key that is there below is a name or an index from 0 on.
      have hnatural : ((Entries.keys (t.flatten [])).filter fun k₂ =>
          (t.value.lookup [k₁, k₂]).isSome) = ((Entries.keys (t.flatten [])).filter
            Key.isNatural).filter fun k₂ => (t.value.lookup [k₁, k₂]).isSome := by
        rw [List.filter_filter]
        refine List.filter_congr fun k₂ _ => ?_
        cases hslot : (t.value.lookup [k₁, k₂]).isSome with
        | false => rfl
        | true =>
            rcases exists_of_lookup_pair k₁ k₂ hslot with ⟨e, he, hmem⟩
            rw [Key.isNatural_of_gapless _ (h.below k₁ hk₁ e he).2 k₂ hmem]
            rfl
      rw [hnatural, flatten_nil]
      exact (Forest.nodup_natural_keys_level _).filter _
  · rw [Function.onFun, List.disjoint_left]
    intro p hpa hpb
    rcases List.mem_map.mp hpa with ⟨k, hk, rfl⟩
    rcases List.mem_map.mp hpb with ⟨l, hl, heq⟩
    have ha' := hback a ha k (List.mem_filter.mp hk).2
    rw [← heq, hback b hb l (List.mem_filter.mp hl).2] at ha'
    exact hab (List.cons.inj ha').1.symm

end Vantage

end DocTree
