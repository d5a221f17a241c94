import Mathlib
import DocTree.Proofs.TwoWildcards
import DocTree.Proofs.Forest.Children
import DocTree.Proofs.Forest.Distinct
import DocTree.Proofs.Forest.Reach

/-!
# All Grandchildren of a View

Asked for two wildcards, a view lists the grandchildren: one path for each child that is
a container and each key of it. The children are fetched for that, and shown as they are
now, whatever is remembered of them; only the keys of the view itself may be stale, and
those whose slots are gone lead to no path.

## Theorems

* `gapless_number`: numbered entries leave out no index.
* `exists_child_of_child?`, `child?_of_child`: the child that is fetched for it.
* `legible_vantage`: what is asked of the keys below a view.
* `twoWildcards_exact`: what the path of two wildcards lists.
-/

namespace DocTree

/-- Numbered entries leave out no index. -/
theorem Slots.gapless_number {α : Type} (s : Slots α) (h : unnamed s ≤ 2 ^ 63) :
    Key.Gapless (Entries.keys (number 0 s)) := by
  refine ⟨unnamed s, fun i => ?_⟩
  rw [mem_keys_number_iff]
  constructor
  · rintro (⟨j, _, hj, hi⟩ | ⟨t, _, ht⟩)
    · rw [Key.index.inj hi, Int64.toInt_ofNat_of_lt (by omega)]
      omega
    · exact absurd ht (by simp)
  · rintro ⟨hlow, hhigh⟩
    exact Or.inl ⟨i.toInt.toNat, Nat.zero_le _, by omega,
      congrArg Key.index (Key.ofNat_toNat_toInt i hlow).symm⟩

namespace Forest

/-! ## Children and slots -/

/-- A slot under a key that is seen has a child, which is of the same kind and has the same keys. -/
theorem exists_child_of_child? {f : Forest} (hf : f.Reachable) (n : ViewId) (key : Key) (u : Value)
    (hkey : key ∈ f.keys n) (hu : (f.value n).child? key = some u) :
    ∃ m g, f.child n key = (some m, g) ∧ g.isContainer m = u.isContainer ∧ g.keys m = u.keys := by
  rcases exists_view?_of_mem_keys f n key hkey with ⟨v, hv⟩
  rw [← slotBelow?_eq_child?, slotBelow?_of_view? f n v key hv] at hu
  rcases shows_child f hf.linked n v key u hv hkey hu with ⟨m, g, hchild, _, hshows⟩
  exact ⟨m, g, hchild, hshows.kind, hshows.keys⟩

/-- The slot of a child that has been fetched. -/
theorem child?_of_child {f : Forest} (hf : f.Reachable) (n m : ViewId) (g : Forest) (key : Key)
    (h : f.child n key = (some m, g)) :
    ∃ u, (f.value n).child? key = some u ∧ g.isContainer m = u.isContainer ∧
      g.keys m = u.keys := by
  rcases shows_of_child f hf.linked n key m g h with ⟨_, u, _, _, hu, _, _, hshows⟩
  exact ⟨u, by rw [← slotBelow?_eq_child?, hu], hshows.kind, hshows.keys⟩

/-! ## Two wildcards -/

theorem legible_vantage {f : Forest} (hf : f.Reachable) (n : ViewId) (c : Char)
    (hkeys : ∀ key ∈ f.keys n, key.Unambiguous c)
    (hbelow : ∀ key ∈ f.keys n, ∀ m g, f.child n key = (some m, g) → g.isContainer m = true →
      (∀ k ∈ g.keys m, k.Unambiguous c) ∧ Key.Gapless (g.keys m)) :
    (f.vantage n).Legible c := by
  refine ⟨hkeys, fun key hkey e he => ?_⟩
  rcases exists_child_of_child? hf n key _ hkey he with ⟨m, g, hchild, hkind, hshown⟩
  have hgiven := hbelow key hkey m g hchild hkind
  rwa [hshown] at hgiven

/-- The path of two wildcards lists every grandchild once and nothing else, if no key on the two
    levels has a text that means something else in a path, and no child leaves out an index. -/
theorem twoWildcards_exact {f : Forest} (hf : f.ReachableDistinct) (n : ViewId)
    (hcontainer : f.isContainer n = true) (separator : String) (c : Char)
    (hseparator : separator.toList = [c]) (hc : c ≠ '*')
    (hkeys : ∀ key ∈ f.keys n, key.Unambiguous c)
    (hbelow : ∀ key ∈ f.keys n, ∀ m g, f.child n key = (some m, g) → g.isContainer m = true →
      (∀ k ∈ g.keys m, k.Unambiguous c) ∧ Key.Gapless (g.keys m)) :
    let paths :=
      (f.matchingPaths n (Path.join [Path.wildcard, Path.wildcard] separator) separator).1
    paths.Nodup ∧ ∀ p, p ∈ paths ↔
      ∃ k₁ ∈ f.keys n, ∃ m g, f.child n k₁ = (some m, g) ∧ g.isContainer m = true ∧
        ∃ k₂ ∈ g.keys m, p = Path.join [k₁.text, k₂.text] separator := by
  intro paths
  have hreachable := hf.reachable
  rcases hv : f.view? n with _ | v
  · exact absurd hcontainer (by simp [isContainer, hv])
  -- The text is a path of two segments.
  let text := Path.join [Path.wildcard, Path.wildcard] separator
  have hsegments : (Path.parse text separator).segments = [Path.wildcard, Path.wildcard] :=
    Path.segments_join_of_not_mem hseparator _ (List.cons_ne_nil _ _)
      (by simpa [Path.wildcard] using hc)
  have hpath : (Path.parse text separator).isWildcard = true := by
    rw [Path.isWildcard, hsegments]
    rfl
  have htext : text ≠ Path.wildcard := by
    intro heq
    have hwildcard := Path.segments_wildcard separator
      (Path.separator_ne_wildcard text separator hpath)
    rw [← heq, hsegments] at hwildcard
    exact absurd hwildcard (by simp)
  have hpaths : paths = _ := matchingPaths_of_isWildcard f hreachable.sound n
    (stands_self f n v hv) text separator htext hpath
  have hlegible := legible_vantage hreachable n c hkeys hbelow
  have hcoherent := coherent_vantage f n
  -- What is listed is what survives in the vantage, so it remains to name the children.
  rw [hpaths]
  refine ⟨Vantage.nodup_survivors_of_pair _ c hseparator hsegments hcoherent hcontainer hlegible
    (hf.nodup_keys n), fun p => ?_⟩
  rw [Vantage.mem_survivors_of_pair _ c hseparator hsegments hcoherent hcontainer hlegible]
  constructor
  · -- A slot two keys down is an entry of the slot one key down, whose child is fetched.
    rintro ⟨k₁, hk₁, k₂, hslot, rfl⟩
    rcases Vantage.exists_of_lookup_pair k₁ k₂ hslot with ⟨e, he, hk₂⟩
    rcases exists_child_of_child? hreachable n k₁ _ hk₁ he with ⟨m, g, hchild, hkind, hshown⟩
    exact ⟨k₁, hk₁, m, g, hchild, hkind, k₂, by rwa [hshown], rfl⟩
  · rintro ⟨k₁, hk₁, m, g, hchild, hkind, k₂, hk₂, rfl⟩
    rcases child?_of_child hreachable n m g k₁ hchild with ⟨u, hu, hkindu, hshown⟩
    rw [hshown] at hk₂
    -- A child that is a container looks at one.
    cases u with
    | container e => exact ⟨k₁, hk₁, k₂, Vantage.isSome_lookup_pair k₁ k₂ e hu hk₂, rfl⟩
    | _ => exact absurd (hkind.symm.trans hkindu) (by simp [Value.isContainer])

/-- A document with a sequence, a scalar under an index and a map with a name before an index. The
    view 0 of it still shows a last key `z` that has been taken out through the view 1. -/
def mixed : Forest :=
  (ofDocuments [.container [(.name "a", .sequence [.int 10, .int 20]), (.index 3, .int 30),
    (.name "b", .container [(.name "x", .int 5), (.index 0, .int 7)]), (.name "z", .null)]]).run
    [.root 0, .root 0, .mutate 1 .pop]

/-- The scalar takes an index in the level that `b` does not have, and `z` leads nowhere. -/
theorem twoWildcards_of_mixed :
    mixed.ReachableDistinct ∧ mixed.isContainer 0 = true ∧ "/".toList = ['/'] ∧ '/' ≠ '*' ∧
      (∀ key ∈ mixed.keys 0, key.Unambiguous '/') ∧
      (∀ key ∈ mixed.keys 0, ∀ m g, mixed.child 0 key = (some m, g) → g.isContainer m = true →
        (∀ k ∈ g.keys m, k.Unambiguous '/') ∧ Key.Gapless (g.keys m)) ∧
      (mixed.matchingPaths 0 "*/*" "/").1 = ["a/0", "a/1", "b/0", "b/x"] ∧
      ∀ p ∈ ["a/0", "a/1", "b/0", "b/x"], ∃ k₁ ∈ mixed.keys 0, ∃ m g,
        mixed.child 0 k₁ = (some m, g) ∧ g.isContainer m = true ∧
          ∃ k₂ ∈ g.keys m, p = Path.join [k₁.text, k₂.text] "/" := by
  have hreachable : mixed.ReachableDistinct :=
    (ReachableDistinct.start _ (by decide)).run _ (by decide) (by decide +kernel)
  have hcontainer : mixed.isContainer 0 = true := by decide +kernel
  have hkeys : ∀ key ∈ mixed.keys 0, key.Unambiguous '/' := by decide +kernel
  have hshown : ∀ key ∈ mixed.keys 0, ∀ m ∈ (mixed.child 0 key).1,
      (mixed.child 0 key).2.keys m ∈
        [[], [.index 0, .index 1], [.name "x", .index 0]] := by decide +kernel
  have hbelow : ∀ key ∈ mixed.keys 0, ∀ m g, mixed.child 0 key = (some m, g) →
      g.isContainer m = true →
        (∀ k ∈ g.keys m, k.Unambiguous '/') ∧ Key.Gapless (g.keys m) := by
    intro key hkey m g hchild _
    have hm := hshown key hkey m (by rw [hchild]; rfl)
    rw [hchild] at hm
    rcases List.mem_cons.mp hm with hm | hm
    · rw [hm]
      exact ⟨by decide, Slots.gapless_number ([] : Slots Value) (by decide)⟩
    · rcases List.mem_cons.mp hm with hm | hm
      · rw [hm]
        exact ⟨by decide, Slots.gapless_number [(none, ()), (none, ())] (by decide)⟩
      · rw [List.mem_singleton.mp hm]
        exact ⟨by decide, Slots.gapless_number [(some "x", ()), (none, ())] (by decide)⟩
  have hpaths : (mixed.matchingPaths 0 "*/*" "/").1 = ["a/0", "a/1", "b/0", "b/x"] := by
    decide +kernel
  have hexact := (twoWildcards_exact hreachable 0 hcontainer "/" '/' rfl (by decide) hkeys hbelow).2
  refine ⟨hreachable, hcontainer, rfl, by decide, hkeys, hbelow, hpaths, fun p hp => ?_⟩
  exact (hexact p).mp (by rw [← hpaths] at hp; exact hp)

end Forest

end DocTree
