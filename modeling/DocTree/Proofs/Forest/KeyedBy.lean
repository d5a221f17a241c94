import Mathlib
import DocTree.Proofs.Flatten
import DocTree.Proofs.Merge.WellKeyed
import DocTree.Proofs.Forest.Run

/-!
# Keys of Documents

No action makes a container with two entries under one key, and none makes a key that is
not canonical. Both say that documents whose keys are distinct and of some kind stay so,
as long as the kind covers the canonical keys and the arguments of the action have keys
of the kind themselves.

Indices could run out. A container with all 2^63 of them does not fit into any memory,
and everything here is about forests that fit. A document that a wildcard makes is built
step by step, and what it is built of is no larger than the document; that the result
fits is enough.

## Main definitions

* `Forest.Fits`: documents that a memory can hold.
* `Forest.KeyedBy`: documents whose keys are distinct and of a kind.
* `Forest.Keeps`: going on without spoiling a document.
* `Mutation.arguments`, `Action.arguments`: the values that come from outside.

## Theorems

* `keyedBy_result`: every mutation makes a container with such keys of one with such keys.
* `keeps_navigation`, `keyedBy_mutation`, `keyedBy_act`: no action spoils a document.
-/

namespace DocTree

variable {P : Key → Prop}

namespace Mutation

/-- The values that a mutation is given. -/
def arguments : Mutation → List Value
  | set _ w _ => [w]
  | append vs => vs
  | prepend vs => vs
  | shift => []
  | pop => []
  | merge w => [w]

/-- Each push adds an entry. -/
theorem length_foldl_push (c : Entries Value) (vs : List Value) :
    (vs.foldl Entries.push c).length = c.length + vs.length := by
  induction vs generalizing c with
  | nil => rfl
  | cons v vs ih =>
      rw [List.foldl_cons, ih, Entries.length_push, List.length_cons]
      omega

/-- What a mutation makes of a container has keys of the kind, if those of the container and the
    arguments are so and the result fits. -/
theorem keyedBy_result (hP : Key.Covers P) (m : Mutation) (c : Entries Value)
    (hc : (Value.container c).KeyedBy P) (harguments : ∀ v ∈ m.arguments, v.KeyedBy P)
    (hfits : (Value.container (m.result c)).Fits) :
    (Value.container (m.result c)).KeyedBy P := by
  have hlength := Value.length_le_of_fits _ hfits
  -- One case for each mutation, and in each the operation that makes its result.
  cases m with
  | set path w separator =>
      refine Value.keyedBy_setPath c _ w hc (fun key hkey => ?_)
        (harguments w (by simp [arguments]))
      -- The location has keys that texts denote.
      rcases List.mem_map.mp hkey with ⟨s, _, rfl⟩
      exact hP.parse s
  | append vs =>
      -- The length of the result bounds how many indices were needed.
      rw [result, length_foldl_push] at hlength
      exact Value.keyedBy_foldl_push hP c vs hc harguments hlength
  | prepend vs =>
      rw [result, Entries.prepend, Entries.length_renumber, List.length_append,
        Entries.length_ofValues] at hlength
      exact Value.keyedBy_prepend hP c vs hc harguments hlength
  | shift =>
      rw [result, Entries.length_renumber] at hlength
      exact Value.keyedBy_renumber hP _
        (Value.keyedBy_of_sublist c _ hc (List.tail_sublist c)) hlength
  | pop => exact Value.keyedBy_of_sublist c _ hc (List.dropLast_sublist c)
  | merge w =>
      have hw := harguments w (by simp [arguments])
      rw [Value.Fits, Value.size, result] at hfits
      exact Value.keyedBy_mergeEntries hP c _ hc (Value.keyedBy_toEntries hP w hw) (by omega)

end Mutation

namespace Forest

/-! ## Documents -/

/-- A memory can hold every document. -/
def Fits (f : Forest) : Prop :=
  ∀ v ∈ f.documents, v.Fits

instance (f : Forest) : Decidable f.Fits :=
  inferInstanceAs (Decidable (∀ v ∈ f.documents, v.Fits))

/-- Every container of every document, at every depth, has distinct keys of this kind. -/
def KeyedBy (P : Key → Prop) (f : Forest) : Prop :=
  ∀ v ∈ f.documents, v.KeyedBy P

/-- Going from `f` to `g` spoils no document: if the documents fit afterwards, they did before,
    and their keys stay distinct keys of the kind. -/
def Keeps (P : Key → Prop) (f g : Forest) : Prop :=
  g.Fits → f.Fits ∧ (f.KeyedBy P → g.KeyedBy P)

theorem Keeps.refl (f : Forest) : f.Keeps P f :=
  fun h => ⟨h, id⟩

/-- What spoils nothing twice spoils nothing. -/
theorem Keeps.trans {f g h : Forest} (hfg : f.Keeps P g) (hgh : g.Keeps P h) :
    f.Keeps P h := by
  intro hfits
  rcases hgh hfits with ⟨hg, hkeyed⟩
  rcases hfg hg with ⟨hf, hkeyed'⟩
  exact ⟨hf, hkeyed ∘ hkeyed'⟩

/-- Without a change to any document nothing is spoiled. -/
theorem keeps_of_documents (f g : Forest) (h : g.documents = f.documents) : f.Keeps P g := by
  intro hfits
  simp only [Fits, KeyedBy, h] at hfits ⊢
  exact ⟨hfits, id⟩

theorem keeps_of_glances (f g : Forest) (h : Glances f g) : f.Keeps P g :=
  keeps_of_documents f g (documents_of_glances f g h)

/-- The keys in a slot are of the kind that the documents have, and a slot that is gone reads as
    null, which has none. -/
theorem keyedBy_value (f : Forest) (hf : f.KeyedBy P) (n : ViewId) : (f.value n).KeyedBy P := by
  rw [value]
  -- A slot is looked up in a document.
  cases hslot : f.slot? n with
  | none => exact Value.keyedBy_of_scalar _ rfl
  | some u =>
      simp only [slot?, slotAt?, Option.bind_eq_some_iff] at hslot
      rcases hslot with ⟨v, _, d, hd, hu⟩
      exact Value.keyedBy_lookup d u v.location (hf d (Array.mem_of_getElem? hd)) hu

/-- A new document spoils nothing if its own keys are distinct and of the kind. -/
theorem keeps_walk (f : Forest) (v : Value) (h : v.Fits → f.KeyedBy P → v.KeyedBy P) :
    f.Keeps P (f.walk v).2 := by
  intro hfits
  have hdocuments : (f.walk v).2.documents = f.documents.push v := rfl
  simp only [Fits, KeyedBy, hdocuments, Array.mem_push] at hfits ⊢
  refine ⟨fun d hd => hfits d (Or.inl hd), fun hf d hd => ?_⟩
  rcases hd with hd | rfl
  · exact hf d hd
  · exact h (hfits d (Or.inr rfl)) hf

/-! ## Wildcards -/

/-- The level that a wildcard makes has keys of the kind, if there is room for it. -/
theorem keyedBy_flatten (hP : Key.Covers P) (f : Forest) (hf : f.KeyedBy P) (n : ViewId)
    (hroom : (f.flatten n).1.length ≤ 2 ^ 63) :
    (Value.container (f.flatten n).1).KeyedBy P := by
  have hitems : (f.items n).2.KeyedBy P := by
    rwa [KeyedBy, documents_of_glances _ _ (glances_items f n)]
  refine keyedBy_foldl_flattenInto hP _ (fun v hv => ?_) hroom
  rcases List.mem_map.mp hv with ⟨c, _, rfl⟩
  exact keyedBy_value _ hitems c.2

/-- No candidate costs a document its keys: a wildcard adds documents, and what it adds has keys of
    the kind. -/
theorem keeps_choices (hP : Key.Covers P) (f : Forest) (frontier : Option ViewId)
    (segments : List String) :
    f.Keeps P (f.choices frontier segments).2 := by
  -- On the segments, for any forest that the walk has come to.
  induction segments generalizing f frontier with
  | nil => exact .refl f
  | cons raw rest ih =>
      simp only [choices]
      split
      · split
        · -- The level that a wildcard adds is made of values of the documents there are.
          rename_i n _
          refine ((keeps_of_glances f _ (glances_flatten f n)).trans
            (keeps_walk _ _ fun hfits hkeyed => ?_)).trans (ih _ _)
          rw [KeyedBy, documents_of_glances _ _ (glances_flatten f n)] at hkeyed
          exact keyedBy_flatten hP f hkeyed n (Value.length_le_of_fits _ hfits)
        · exact ih f frontier
      · cases frontier with
        | none => exact ih f none
        | some n => exact (keeps_of_glances f _ (glances_get f n raw)).trans (ih _ _)

/-- Trying the candidates adds nothing to what making them has done. -/
theorem keeps_survivors (hP : Key.Covers P) (f : Forest) (n : ViewId) (path : Path) :
    f.Keeps P (f.survivors n path).2 := by
  have hcandidates : f.Keeps P (f.candidates n path).2 :=
    keeps_choices hP f (some n) path.segments
  unfold survivors
  refine hcandidates.trans (keeps_of_glances _ _ (glances_thread _ ?_ _ _))
  intro g candidate
  exact glances_tryCandidate g n path candidate

/-- The sequence of what the survivors read has keys of the kind. -/
theorem keeps_expand (hP : Key.Covers P) (f : Forest) (n : ViewId) (path : Path) :
    f.Keeps P (f.expand n path).2 := by
  refine (keeps_survivors hP f n path).trans (keeps_walk _ _ fun hfits hkeyed => ?_)
  have hlength := Value.length_le_of_fits _ hfits
  rw [Entries.length_ofValues] at hlength
  refine Value.keyedBy_sequence hP _ (fun v hv => ?_) hlength
  rcases List.mem_map.mp hv with ⟨e, _, rfl⟩
  exact keyedBy_value _ hkeyed e.2

/-- A path spoils no document, with wildcards or without. -/
theorem keeps_resolve (hP : Key.Covers P) (f : Forest) (n : ViewId) (text separator : String) :
    f.Keeps P (f.resolve n text separator).2 := by
  unfold resolve
  split
  · exact .refl f
  · split
    · exact .refl f
    · dsimp only
      split
      · exact keeps_expand hP f n _
      · exact keeps_of_glances f _ (glances_walkSegments f n _)

/-- Nor does listing the paths. -/
theorem keeps_matchingPaths (hP : Key.Covers P) (f : Forest) (n : ViewId)
    (text separator : String) :
    f.Keeps P (f.matchingPaths n text separator).2 := by
  have hresolve := keeps_resolve hP f n text separator
  unfold matchingPaths
  split
  · exact .refl f
  · dsimp only
    split
    · split
      · rename_i m g hr
        rw [hr] at hresolve
        exact hresolve
      · rename_i g hr
        rw [hr] at hresolve
        exact hresolve
    · exact keeps_survivors hP f n _

/-! ## Actions -/

/-- No way to navigate spoils a document. -/
theorem keeps_navigation (hP : Key.Covers P) (a : Navigation) (f : Forest) (n : ViewId) :
    f.Keeps P (a.perform f n) := by
  cases a with
  | resolve path separator => exact keeps_resolve hP f n path separator
  | matchingPaths path separator => exact keeps_matchingPaths hP f n path separator
  | _ => exact keeps_of_glances f _ (glances_navigation _ f n (by simp) (by simp))

/-- A mutation with arguments whose keys are of the kind leaves the documents so, if they fit. -/
theorem keyedBy_mutation (hP : Key.Covers P) (m : Mutation) (f : Forest) (n : ViewId)
    (hf : f.KeyedBy P)
    (harguments : ∀ v ∈ m.arguments, v.KeyedBy P) (hfits : (m.perform f n).2.Fits) :
    (m.perform f n).2.KeyedBy P := by
  rcases m.perform_cases f n with hnone | ⟨v, c, hv, hwrite⟩
  · rwa [hnone]
  · rw [hwrite] at hfits ⊢
    rcases documents_write f n v c (.container (m.result c)) hv with
      ⟨old, new, hold, hnew, hdocuments⟩
    have hcontainer : (Value.container c).KeyedBy P := by
      rw [← hv.value]
      exact keyedBy_value f hf n
    -- The result is in a document that fits.
    have hmem : ((f.write n (.container (m.result c))).reload n).documents[v.document]?
        = some new := by
      rw [reload_eq_update, documents_update, hdocuments, if_pos rfl]
    have hresult : (Value.container (m.result c)).Fits :=
      Value.fits_of_lookup new _ v.location (hfits new (Array.mem_of_getElem? hmem))
        (Value.lookup_replace?_self old _ new v.location hnew)
    have hwritten := m.keyedBy_result hP c hcontainer harguments hresult
    intro d hd
    -- Of the documents one has been written, and the others are as before.
    rcases Array.mem_iff_getElem?.mp hd with ⟨k, hk⟩
    rw [reload_eq_update, documents_update, hdocuments] at hk
    split at hk
    · rw [← Option.some.inj hk]
      exact Value.keyedBy_replace? old _ new v.location
        (hf old (Array.mem_of_getElem? hold)) hwritten hnew
    · exact hf d (Array.mem_of_getElem? hk)

end Forest

namespace Action

/-- The values that an action is given. -/
def arguments : Action → List Value
  | walk v => [v]
  | mutate _ m => m.arguments
  | _ => []

/-- An action with arguments whose keys are of the kind leaves the documents so, if they fit. -/
theorem keyedBy_act (hP : Key.Covers P) (a : Action) (f : Forest) (hf : f.KeyedBy P)
    (harguments : ∀ v ∈ a.arguments, v.KeyedBy P) (hfits : (f.act a).Fits) :
    (f.act a).KeyedBy P := by
  -- Only a new document and a mutation bring in values from outside.
  cases a with
  | walk v =>
      exact (Forest.keeps_walk f v (fun _ _ => harguments v List.mem_cons_self) hfits).2 hf
  | root d =>
      simp only [Forest.act] at hfits ⊢
      split
      · exact hf
      · exact hf
  | hold ns => exact hf
  | navigate n a =>
      simp only [Forest.act] at hfits ⊢
      split
      · rename_i husable
        rw [if_pos husable] at hfits
        exact (Forest.keeps_navigation hP a f n hfits).2 hf
      · exact hf
  | mutate n m =>
      simp only [Forest.act] at hfits ⊢
      split
      · rename_i husable
        rw [if_pos husable] at hfits
        exact Forest.keyedBy_mutation hP m f n hf harguments hfits
      · exact hf

end Action

end DocTree
