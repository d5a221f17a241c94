import Mathlib
import DocTree.Merge
import DocTree.Proofs.Entries
import DocTree.Proofs.Nesting

/-!
# Leaves of a Merge

A merge moves things about: indices are numbered anew, a scalar may end up in a
sequence one level further down, names keep the place where they came first. What it
does not touch are the names that lead to a scalar. So the scalars are collected
together with the names on the way to them, indices left out, and as a multiset,
which also leaves out their order.

In that form a merge is a sum: nothing is lost and nothing is made up. The proof
follows the recursion of the merge. Only one of its steps writes over anything, the
one at a name that both sides have, and what it writes is the merge of what was there
with what arrives.

## Main definitions

* `Leaf`: a scalar with the names that lead to it.
* `Value.leaves`, `Value.entriesLeaves`: all of them.

## Theorems

* `entriesLeaves_append`, `entriesLeaves_push`, `entriesLeaves_renumberFrom`: the leaves
  after the operations that a merge is made of.
* `entriesLeaves_overwrite`: the leaves after an entry has been overwritten.
* `leaves_combine_and_absorb`: combining values and absorbing entries add their leaves.
* `leaves_merge_eq_add`: the leaves of a merge are those of both sides.
-/

namespace DocTree

/-- A scalar and the names that lead to it from the outside in, indices left out. -/
structure Leaf where
  names : List String
  scalar : Value

namespace Leaf

/-- The leaf as seen from one key further out. -/
def under (key : Key) (l : Leaf) : Leaf :=
  match key with
  | .index _ => l
  | .name s => { l with names := s :: l.names }

theorem under_index (i : Int64) : under (.index i) = id := rfl

end Leaf

namespace Value

mutual

/-- All scalars of a value, each with the names that lead to it. -/
def leaves : Value → Multiset Leaf
  | container c => entriesLeaves c
  | v => {⟨[], v⟩}

/-- All scalars in entries, each with the names that lead to it. -/
def entriesLeaves : List (Key × Value) → Multiset Leaf
  | [] => 0
  | (key, v) :: c => v.leaves.map (Leaf.under key) + entriesLeaves c

end

/-! ## Entries -/

theorem entriesLeaves_append (c d : Entries Value) :
    entriesLeaves (c ++ d) = entriesLeaves c + entriesLeaves d := by
  induction c with
  | nil => simp [entriesLeaves]
  | cons e c ih =>
      rcases e with ⟨key, v⟩
      rw [List.cons_append, entriesLeaves, ih, entriesLeaves, add_assoc]

theorem entriesLeaves_index (i : Int64) (v : Value) : entriesLeaves [(.index i, v)] = v.leaves := by
  rw [entriesLeaves, Leaf.under_index, Multiset.map_id, entriesLeaves, add_zero]

theorem entriesLeaves_push (c : Entries Value) (v : Value) :
    entriesLeaves (Entries.push c v) = entriesLeaves c + v.leaves := by
  rw [Entries.push, entriesLeaves_append, entriesLeaves_index]

/-- Numbers of indices are not seen in the leaves. -/
theorem entriesLeaves_renumberFrom (n : Nat) (c : Entries Value) :
    entriesLeaves (Entries.renumberFrom n c) = entriesLeaves c := by
  induction c generalizing n with
  | nil => rfl
  | cons e c ih =>
      rcases e with ⟨key, v⟩
      cases key with
      | index i =>
          rw [Entries.renumberFrom, entriesLeaves, ih, entriesLeaves, Leaf.under_index,
            Leaf.under_index]
      | name s => rw [Entries.renumberFrom, entriesLeaves, ih, entriesLeaves]

theorem entriesLeaves_toEntries (v : Value) : entriesLeaves v.toEntries = v.leaves := by
  cases v with
  | container c => rfl
  | _ => exact entriesLeaves_index 0 _

/-- Overwriting an entry exchanges its leaves. -/
theorem entriesLeaves_overwrite (c : Entries Value) (key : Key) (old w : Value)
    (h : Entries.get? c key = some old) :
    entriesLeaves (Entries.overwrite c key w) + old.leaves.map (Leaf.under key)
      = entriesLeaves c + w.leaves.map (Leaf.under key) := by
  rcases Entries.exists_place_overwrite c key old w h with ⟨front, back, rfl, hoverwrite⟩
  rw [hoverwrite, entriesLeaves_append, entriesLeaves_append, entriesLeaves, entriesLeaves]
  -- The sums differ in the order of their terms.
  abel

/-! ## Merges -/

/-- What a value adds to the one that it is combined with, and entries to those that absorb
    them, are just its leaves. -/
theorem leaves_combine_and_absorb :
    (∀ v old, (combine old v).leaves = old.leaves + v.leaves) ∧
      ∀ c merged, entriesLeaves (absorb merged c) = entriesLeaves merged + entriesLeaves c := by
  refine induction (fun v hv old => ?_) (fun c hc old => ?_) (fun merged => ?_)
    fun key v c hv hc merged => ?_
  · -- A scalar is pushed onto the other side.
    have hcombine : combine old v
        = container (Entries.push (Entries.renumber old.toEntries) v) := by
      cases v with
      | container c => exact absurd hv (by simp [isContainer])
      | _ => rfl
    rw [hcombine, leaves, entriesLeaves_push, Entries.renumber, entriesLeaves_renumberFrom,
      entriesLeaves_toEntries]
  · rw [combine, leaves, hc, Entries.renumber, entriesLeaves_renumberFrom,
      entriesLeaves_toEntries, leaves]
  · rw [absorb, entriesLeaves, add_zero]
  · cases key with
    | index i =>
        rw [absorb, hc, entriesLeaves_push, entriesLeaves, Leaf.under_index, Multiset.map_id,
          add_assoc]
    | name s =>
        rw [absorb]
        cases hget : Entries.get? merged (.name s) with
        | none =>
            -- A new name brings its leaves along.
            dsimp only
            rw [hc, entriesLeaves_append, entriesLeaves, entriesLeaves, entriesLeaves, add_zero,
              add_assoc]
        | some old =>
            -- The leaves that were under the name are taken out and put back with the new ones.
            dsimp only
            have hexchange := entriesLeaves_overwrite merged (.name s) old (combine old v) hget
            have hwritten : entriesLeaves (Entries.overwrite merged (.name s) (combine old v))
                = entriesLeaves merged + v.leaves.map (Leaf.under (.name s)) := by
              rw [hv, Multiset.map_add] at hexchange
              refine add_right_cancel (hexchange.trans ?_)
              abel
            rw [hc, hwritten, entriesLeaves, add_assoc]

/-- A merge loses nothing and makes nothing up: its scalars, with the names that lead to them,
    are those of the left side and those of the right side. -/
theorem leaves_merge_eq_add (left right : Value) :
    (merge left right).leaves = left.leaves + right.leaves := by
  rw [merge, leaves, mergeEntries, leaves_combine_and_absorb.2, Entries.renumber,
    entriesLeaves_renumberFrom, entriesLeaves_toEntries, entriesLeaves_toEntries]

end Value

end DocTree
