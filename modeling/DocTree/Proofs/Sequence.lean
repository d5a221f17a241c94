import Mathlib
import DocTree.Merge
import DocTree.Tree
import DocTree.Proofs.FreeIndex
import DocTree.Proofs.WellKeyed

/-!
# Sequences and Renumbering

A container is a sequence if its keys are 0, 1, 2, … in order, and then its values say all
there is to say about it. What an operation makes of a sequence is found by leaving the keys
out, doing the same to the list of values, and numbering what comes out.

Three of the operations get there in different ways. A push takes the index after the largest
one, which is that of the place behind the last value. A renumbering does not look at the
indices it replaces, so it does not matter what has been put in front or taken away. The last
value can go without any of this, since nothing comes behind it.

Outside of a sequence names stand between the indices. Renumbering then gives an entry the
number of index keys before it, and leaves the names in their places.

## Main definitions

* `Key.reindex`: an index key with another index; a name stays.

## Theorems

* `renumber_eq_mapIdx`: which key an entry has after renumbering.
* `isSequence_iff`: a container is a sequence if it is the sequence of its values.
* `foldl_push_ofValues`, `prepend_ofValues`, `renumber_tail_ofValues`, `dropLast_ofValues`,
  `absorb_ofValues`: what the operations make of a sequence.
* `ofValue_sequence`: a sequence is written as a list.
-/

namespace DocTree

namespace Key

/-- An index key with this index instead of its own; a name stays as it is. -/
def reindex (i : Nat) : Key → Key
  | index _ => index (Int64.ofNat i)
  | name s => name s

end Key

namespace Entries

variable {α : Type}

/-! ## Renumbering -/

/-- An entry gets the number of index keys before it, if it has an index. -/
theorem getElem?_renumberFrom (n : Nat) (d : Entries α) (i : Nat) :
    (renumberFrom n d)[i]? = d[i]?.map fun e =>
      (e.1.reindex (n + (d.take i).countP (·.1.isIndex)), e.2) := by
  -- Induction on the entries, with the number that the next index becomes.
  induction d generalizing n i with
  | nil => rfl
  | cons e d ih =>
      rcases e with ⟨key, v⟩
      cases i with
      | zero => cases key <;> rfl
      | succ i =>
          rw [List.take_succ_cons, List.getElem?_cons_succ]
          -- The first entry is before all others, and counts for them if it has an index.
          cases key with
          | index j =>
              rw [renumberFrom, List.getElem?_cons_succ, ih, List.countP_cons_of_pos rfl,
                show n + 1 + (d.take i).countP (·.1.isIndex)
                  = n + ((d.take i).countP (·.1.isIndex) + 1) by omega]
          | name s =>
              rw [renumberFrom, List.getElem?_cons_succ, ih,
                List.countP_cons_of_neg (by simp [Key.isIndex])]

/-- Indices become 0, 1, 2, … in entry order, and names stay in their places. -/
theorem renumber_eq_mapIdx (c : Entries α) :
    renumber c = c.mapIdx fun i e =>
      (e.1.reindex ((c.take i).countP (·.1.isIndex)), e.2) := by
  refine List.ext_getElem? fun i => ?_
  rw [renumber, getElem?_renumberFrom, Nat.zero_add, List.getElem?_mapIdx]

theorem head?_renumber (c : Entries α) :
    (renumber c).head?.map Prod.snd = c.head?.map Prod.snd := by
  rw [← List.head?_map, ← List.head?_map]
  exact congrArg List.head? (values_renumber c)

/-! ## Sequences -/

theorem sequenceFrom_iff (n : Nat) (c : Entries α) :
    sequenceFrom n c = true ↔ c = numberedFrom n (values c) := by
  -- Induction on the entries: each has to have the next number as its key.
  induction c generalizing n with
  | nil => exact iff_of_true rfl rfl
  | cons e c ih =>
      rcases e with ⟨key, v⟩
      rw [show values ((key, v) :: c) = v :: values c from rfl, numberedFrom, List.cons.injEq,
        Prod.mk.injEq, ← ih, sequenceFrom, Bool.and_eq_true, decide_eq_true_eq]
      simp only [and_true]

/-- A container is a sequence if it is the sequence of its values. -/
theorem isSequence_iff (c : Entries α) : isSequence c = true ↔ c = ofValues (values c) :=
  sequenceFrom_iff 0 c

theorem isSequence_ofValues (vs : List α) : isSequence (ofValues vs) = true := by
  rw [isSequence_iff, values_ofValues]

theorem ofValues_concat (vs : List α) (v : α) :
    ∃ key, ofValues (vs ++ [v]) = ofValues vs ++ [(key, v)] := by
  refine ⟨.index (Int64.ofNat (Slots.unnamed (vs.map fun v => (none, v)))), ?_⟩
  rw [ofValues, ← number_unnamed, List.map_append, Slots.number_append, number_unnamed, ofValues,
    Nat.zero_add]
  rfl

/-- Values are pushed behind those of a sequence, as long as there are indices left. -/
theorem foldl_push_ofValues (vs ws : List α) (hroom : (vs ++ ws).length ≤ 2 ^ 63) :
    ws.foldl push (ofValues vs) = ofValues (vs ++ ws) := by
  have hfront : vs.length ≤ 2 ^ 63 := by
    rw [List.length_append] at hroom
    omega
  rw [← foldl_push_nil vs hfront, ← List.foldl_append, foldl_push_nil _ hroom]

theorem prepend_ofValues (vs ws : List α) : prepend (ofValues vs) ws = ofValues (ws ++ vs) := by
  rw [prepend]
  refine renumber_of_slots _ _ ?_
  rw [slots_append, slots_ofValues, slots_ofValues, List.map_append]

theorem renumber_ofValues (vs : List α) : renumber (ofValues vs) = ofValues vs :=
  renumber_of_slots _ _ (slots_ofValues vs)

theorem renumber_tail_ofValues (vs : List α) :
    renumber (ofValues vs).tail = ofValues vs.tail := by
  refine renumber_of_slots _ _ ?_
  rw [slots_tail, slots_ofValues, List.map_tail]

theorem dropLast_ofValues (vs : List α) : (ofValues vs).dropLast = ofValues vs.dropLast := by
  rcases List.eq_nil_or_concat vs with rfl | ⟨vs, v, rfl⟩
  · rfl
  · rcases ofValues_concat vs v with ⟨key, hconcat⟩
    rw [List.concat_eq_append, hconcat, List.dropLast_concat, List.dropLast_concat]

theorem head?_ofValues (vs : List α) : (ofValues vs).head?.map Prod.snd = vs.head? := by
  rw [← List.head?_map, ← values, values_ofValues]

theorem getLast?_ofValues (vs : List α) : (ofValues vs).getLast?.map Prod.snd = vs.getLast? := by
  rw [← List.getLast?_map, ← values, values_ofValues]

/-- A sequence is absorbed by pushing its values. -/
theorem absorb_ofValues (merged : Entries Value) (vs : List Value) :
    Value.absorb merged (ofValues vs) = vs.foldl push merged := by
  have hnumbered : ∀ n merged, Value.absorb merged (numberedFrom n vs) = vs.foldl push merged := by
    induction vs with
    | nil => exact fun n merged => rfl
    | cons v vs ih => exact fun n merged => ih (n + 1) (push merged v)
  exact hnumbered 0 merged

end Entries

namespace Tree

theorem ofValues_eq_map (c : Entries Value) : ofValues c = (Entries.values c).map ofValue := by
  induction c with
  | nil => rfl
  | cons e c ih => exact congrArg (ofValue e.2 :: ·) ih

/-- A sequence is written as the list of its values. -/
theorem ofValue_sequence (c : Entries Value) (h : c.isSequence = true) :
    ofValue (.container c) = .list ((Entries.values c).map ofValue) := by
  rw [ofValue, if_pos h, ofValues_eq_map]

end Tree

end DocTree
