import Mathlib
import DocTree.Merge
import DocTree.Proofs.WellKeyed

/-!
# Well-Keyed Merges

A merge never makes a container smaller: what is there already is kept, or combined
with what arrives. So the size of the result bounds everything that is built on the
way, and a merge whose result fits into memory has not run out of indices at any depth.

## Theorems

* `entriesSize_push`, `entriesSize_renumber`, `entriesSize_overwrite`: the size after the
  operations that a merge is made of.
* `size_combine_and_absorb`: a merge makes nothing smaller.
* `keyedBy_mergeEntries`: a merge of well-keyed containers is well-keyed.
-/

namespace DocTree

namespace Value

/-! ## Sizes -/

/-- The sizes of two lists of entries add up. -/
theorem entriesSize_append (c d : Entries Value) :
    entriesSize (c ++ d) = entriesSize c + entriesSize d := by
  induction c with
  | nil => simp [entriesSize]
  | cons e c ih =>
      rcases e with ⟨key, v⟩
      rw [List.cons_append, entriesSize, ih, entriesSize, Nat.add_assoc]

/-- A push adds the size of its value. -/
theorem entriesSize_push (c : Entries Value) (v : Value) :
    entriesSize (Entries.push c v) = entriesSize c + v.size := by
  rw [Entries.push, entriesSize_append, entriesSize, entriesSize, Nat.add_zero]

/-- Renumbering changes no size. -/
theorem entriesSize_renumberFrom (n : Nat) (c : Entries Value) :
    entriesSize (Entries.renumberFrom n c) = entriesSize c := by
  induction c generalizing n with
  | nil => rfl
  | cons e c ih =>
      rcases e with ⟨key, v⟩
      cases key with
      | index i => rw [Entries.renumberFrom, entriesSize, ih, entriesSize]
      | name s => rw [Entries.renumberFrom, entriesSize, ih, entriesSize]

theorem entriesSize_renumber (c : Entries Value) :
    entriesSize (Entries.renumber c) = entriesSize c :=
  entriesSize_renumberFrom 0 c

/-- An overwrite exchanges one size for another. -/
theorem entriesSize_overwrite (c : Entries Value) (key : Key) (old w : Value)
    (h : Entries.get? c key = some old) :
    entriesSize (Entries.overwrite c key w) + old.size = entriesSize c + w.size := by
  rcases Entries.exists_place_overwrite c key old w h with ⟨front, back, rfl, hoverwrite⟩
  rw [hoverwrite, entriesSize_append, entriesSize_append, entriesSize, entriesSize]
  omega

/-- A value that can be read is counted with the entries. -/
theorem size_le_of_get? (c : Entries Value) (key : Key) (v : Value)
    (h : Entries.get? c key = some v) : v.size ≤ entriesSize c :=
  size_le_of_mem c _ (Entries.mem_of_get? c key v h)

/-- Taken as entries, a value is at most as large as a container of them. -/
theorem size_le_entriesSize_toEntries (v : Value) : v.size ≤ entriesSize v.toEntries + 1 := by
  cases v with
  | container c => exact Nat.le_refl _
  | _ => exact Nat.le_add_left _ _

/-- A scalar is combined by pushing it onto what is there. -/
theorem combine_of_scalar (old v : Value) (h : v.isContainer = false) :
    combine old v = container (Entries.push (Entries.renumber old.toEntries) v) := by
  cases v with
  | container c => exact absurd h (by simp [isContainer])
  | _ => rfl

/-- A merge makes nothing smaller than it was. -/
theorem size_combine_and_absorb :
    (∀ v old, old.size ≤ (combine old v).size) ∧
      ∀ c merged, entriesSize merged ≤ entriesSize (absorb merged c) := by
  -- On the value that arrives, and on the entries that arrive, whatever is there already.
  refine induction (fun v hv old => ?_) (fun c hc old => ?_) (fun merged => ?_)
    fun key v c hv hc merged => ?_
  · have hold := size_le_entriesSize_toEntries old
    rw [combine_of_scalar old v hv, size, entriesSize_push, entriesSize_renumber]
    omega
  · have hold := size_le_entriesSize_toEntries old
    -- A container is absorbed by what is there, taken as entries.
    have habsorb := hc (Entries.renumber old.toEntries)
    rw [entriesSize_renumber] at habsorb
    rw [combine, size]
    omega
  · rw [absorb]
  · cases key with
    | index i =>
        -- An entry under an index is pushed.
        have hrest := hc (Entries.push merged v)
        rw [entriesSize_push] at hrest
        rw [absorb]
        omega
    | name s =>
        rw [absorb]
        cases hget : Entries.get? merged (.name s) with
        | none =>
            -- A name that is new comes last, and one that is there is combined with what it has.
            have hrest := hc (merged ++ [(.name s, v)])
            rw [entriesSize_append] at hrest
            dsimp only
            omega
        | some old =>
            have hrest := hc (Entries.overwrite merged (.name s) (combine old v))
            have hexchange := entriesSize_overwrite merged (.name s) old (combine old v) hget
            have hlarger := hv old
            dsimp only
            omega

/-! ## Merges -/

variable {P : Key → Prop}

/-- Combining with a well-keyed value, and absorbing well-keyed entries, keeps well-keyed what is
    well-keyed, if the result fits. -/
theorem keyedBy_combine_and_absorb (hP : Key.Covers P) :
    (∀ v : Value, v.KeyedBy P → ∀ old, old.KeyedBy P → (combine old v).size ≤ 2 ^ 63 →
      (combine old v).KeyedBy P) ∧
    ∀ c : Entries Value, ((∀ key ∈ Entries.keys c, P key) ∧
        ∀ v ∈ Entries.values c, v.KeyedBy P) →
      ∀ merged, (container merged).KeyedBy P → entriesSize (absorb merged c) ≤ 2 ^ 63 →
        (container (absorb merged c)).KeyedBy P := by
  refine induction (fun v hv hkeyed old hold hroom => ?_) (fun c hc hkeyed old hold hroom => ?_)
    (fun _ merged hmerged hroom => ?_) fun key v c hv hc hkeyed merged hmerged hroom => ?_
  · -- A scalar is pushed onto the other side.
    rw [combine_of_scalar old v hv] at hroom ⊢
    have hlength := length_le_entriesSize (Entries.push (Entries.renumber old.toEntries) v)
    rw [size] at hroom
    have hentries := keyedBy_toEntries hP old hold
    rw [Entries.length_push, Entries.length_renumber] at hlength
    refine keyedBy_push hP _ v (keyedBy_renumber hP _ hentries (by omega)) hkeyed ?_
    rw [Entries.length_renumber]
    omega
  · rw [combine] at hroom ⊢
    rw [size] at hroom
    have hentries := keyedBy_toEntries hP old hold
    -- A container is absorbed by the other side, whose entries are no more than those of the
    -- result.
    have hsize := size_combine_and_absorb.2 c (Entries.renumber old.toEntries)
    rw [entriesSize_renumber] at hsize
    have hlength := length_le_entriesSize old.toEntries
    rw [keyedBy_container_iff] at hkeyed
    exact hc ⟨hkeyed.1.2, hkeyed.2⟩ _ (keyedBy_renumber hP _ hentries (by omega)) (by omega)
  · exact hmerged
  · rw [Entries.keys, Entries.values, List.map_cons, List.map_cons, List.forall_mem_cons,
      List.forall_mem_cons] at hkeyed
    rcases hkeyed with ⟨⟨hkey, hkeys⟩, hkeyedv, hvalues⟩
    cases key with
    | index i =>
        rw [absorb] at hroom ⊢
        -- A value under an index is pushed. There is an index left for it, since all that follows
        -- makes nothing smaller.
        have hsize := size_combine_and_absorb.2 c (Entries.push merged v)
        have hlength := length_le_entriesSize (Entries.push merged v)
        rw [Entries.length_push] at hlength
        exact hc ⟨hkeys, hvalues⟩ _ (keyedBy_push hP merged v hmerged hkeyedv (by omega)) hroom
    | name s =>
        rw [absorb] at hroom ⊢
        cases hget : Entries.get? merged (.name s) with
        | none =>
            rw [hget] at hroom
            -- The name is new, so its entry comes last.
            have hnew : Key.name s ∉ Entries.keys merged := by
              rw [← Entries.isSome_get?_iff, hget]
              simp
            exact hc ⟨hkeys, hvalues⟩ _ (keyedBy_concat merged _ v hmerged hnew hkey hkeyedv) hroom
        | some old =>
            rw [hget] at hroom
            dsimp only at hroom ⊢
            -- What is written over the name is part of a result that fits.
            have hwritten : Entries.get?
                (Entries.overwrite merged (.name s) (combine old v)) (.name s)
                  = some (combine old v) :=
              Entries.get?_overwrite_self merged _ _ (by rw [hget]; rfl)
            have hsize := size_combine_and_absorb.2 c
              (Entries.overwrite merged (.name s) (combine old v))
            have hfits := size_le_of_get? _ _ _ hwritten
            have hold := ((keyedBy_container_iff merged).mp hmerged).2 old
              (Entries.mem_values_of_get? merged _ old hget)
            have hcombined := hv hkeyedv old hold (by omega)
            exact hc ⟨hkeys, hvalues⟩ _ (keyedBy_overwrite merged _ _ hmerged hcombined) hroom

/-- A merge of well-keyed containers is well-keyed, if it fits. -/
theorem keyedBy_mergeEntries (hP : Key.Covers P) (left right : Entries Value)
    (hleft : (container left).KeyedBy P) (hright : (container right).KeyedBy P)
    (hroom : entriesSize (mergeEntries left right) ≤ 2 ^ 63) :
    (container (mergeEntries left right)).KeyedBy P := by
  -- The left side is part of the result, so it has room for its own indices.
  have hsize := size_combine_and_absorb.2 right (Entries.renumber left)
  rw [entriesSize_renumber] at hsize
  have hlength := length_le_entriesSize left
  rw [mergeEntries] at hroom ⊢
  rw [keyedBy_container_iff] at hright
  exact (keyedBy_combine_and_absorb hP).2 right ⟨hright.1.2, hright.2⟩ _
    (keyedBy_renumber hP left hleft (by omega)) hroom

end Value

end DocTree
