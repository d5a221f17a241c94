import Mathlib
import DocTree.Proofs.Collect
import DocTree.Proofs.Position

/-!
# Containers as Ordered Maps

A container is a finite map whose keys stand in the order in which they were inserted. What there
is to know about it are its keys in order and the value under each, and here is what every
operation does to these.

The laws of a map hold only as long as no two entries have the same key: a read stops at the first
of them, and so does a removal, which would uncover the second. Two operations write without
looking for the key, and one writes all indices anew, so that keys are distinct is a property of
containers that are made by these operations and not of lists of entries. Each of the operations
keeps it, with any keys and values, as long as there are fewer than 2^63 entries.

## Main definitions

* `Entries.Operation`, `Entries.Answer`: what can be done to a container, and what comes back.
* `Entries.Operation.perform`, `Entries.Operation.perform?`: how that is done, and how it is done
  by positions and with checked numbers.
* `Entries.Built`: the containers that operations make.
* `Entries.Puts`, `Entries.Drops`, `Entries.Fronts`: what is the same before and after, and what
  is not.
* `Entries.Operation.Meets`: the law of each operation.

## Theorems

* `perform?_eq`: no operation fails.
* `distinct_perform`, `Built.distinct`: keys stay distinct.
* `puts_insert`, `puts_overwrite`, `puts_push`: writing under one key.
* `drops_erase`: removing one key.
* `fronts_renumber`: putting values in front.
* `meets_perform`: operations follow their laws where keys are distinct.
* `Built.refines_ordered_map`: they always do.
-/

namespace DocTree

namespace Entries

variable {α : Type}

/-! ## Operations -/

/-- What can be done to a container. A slot that is asked for in order to be written is written at
    once, and a container that is built takes the place of the old one. -/
inductive Operation where
  | insert (key : Key) (w : Value)
  | entry (key : Key) (w : Value)
  | overwrite (key : Key) (w : Value)
  | remove (key : Key)
  | removeFirst
  | removeLast
  | push (w : Value)
  | prepend (vs : List Value)
  | renumber
  | ofValues (vs : List Value)
  | collect (pairs : List (Key × Value))

/-- What an operation gives back. -/
inductive Answer where
  | done
  | value (v : Option Value)
  | taken (e : Option (Key × Value))
  | key (k : Key)

namespace Operation

/-- The answer of an operation, and the container afterwards. -/
def perform : Operation → Entries Value → Answer × Entries Value
  | insert key w, c => (.value (c.get? key), c.insert key w)
  | entry key w, c =>
    let d := c.ensure key .null
    (.value (d.get? key), d.overwrite key w)
  | overwrite key w, c => (.value (c.get? key), c.overwrite key w)
  | remove key, c => (.value (c.get? key), c.erase key)
  | removeFirst, c => (.taken c.head?, c.tail)
  | removeLast, c => (.taken c.getLast?, c.dropLast)
  | push w, c => (.key (.index c.nextIndex), c.push w)
  | prepend vs, c => (.done, c.prepend vs)
  | renumber, c => (.done, c.renumber)
  | ofValues vs, _ => (.done, Entries.ofValues vs)
  | collect pairs, _ => (.done, Entries.collect pairs)

/-- The same by positions and with checked numbers. There is no result if a position has no entry
    or a number does not fit. -/
def perform? : Operation → Entries Value → Option (Answer × Entries Value)
  | insert key w, c => (insertAt? c key w).map fun r => (.value r.1, r.2)
  | entry key w, c => (writeAt? c key .null w).map fun r => (.value (some r.1), r.2)
  | overwrite key w, c => some (.value (c.get? key), c.overwrite key w)
  | remove key, c => (eraseAt? c key).map fun r => (.value r.1, r.2)
  | removeFirst, c =>
    if c.isEmpty then some (.taken none, c)
    else (removeAt? c 0).map fun r => (.taken (some r.1), r.2)
  | removeLast, c => some (.taken c.getLast?, c.dropLast)
  | push w, c => (push? c w).map fun r => (.key (.index r.1), r.2)
  | prepend vs, c => (prepend? c vs).map fun d => (.done, d)
  | renumber, c => (renumberFrom? 0 c).map fun d => (.done, d)
  | ofValues vs, _ => (ofValues? vs).map fun d => (.done, d)
  | collect pairs, _ => (collect? pairs).map fun d => (.done, d)

/-- No position is missed and no number runs over while the result has fewer than 2^63 entries. -/
theorem perform?_eq (o : Operation) (c : Entries Value) (h : (o.perform c).2.length < 2 ^ 63) :
    o.perform? c = some (o.perform c) := by
  cases o with
  | insert key w => rw [perform?, insertAt?_eq, Option.map_some, perform]
  | entry key w =>
      rw [perform?, writeAt?_eq, Option.map_some, perform]
      dsimp only
      rw [get?_ensure, overwrite_ensure]
  | overwrite key w => rfl
  | remove key => rw [perform?, eraseAt?_eq, Option.map_some, perform]
  | removeFirst => cases c <;> rfl
  | removeLast => rfl
  | push w =>
      rw [perform, length_push] at h
      rw [perform?, push?_eq c w (Nat.lt_of_succ_lt h), Option.map_some, perform]
  | prepend vs =>
      rw [perform, length_prepend] at h
      rw [perform?, prepend?_eq c vs h, Option.map_some, perform]
  | renumber =>
      rw [perform, length_renumber] at h
      rw [perform?, show (0 : Int64) = Int64.ofNat 0 from rfl,
        renumberFrom?_eq 0 c (by rwa [Nat.zero_add]), Option.map_some, perform, Entries.renumber]
  | ofValues vs =>
      rw [perform, length_ofValues] at h
      rw [perform?, ofValues?_eq vs (Nat.le_of_lt h), Option.map_some, perform]
  | collect pairs => rw [perform?, collect?_eq, Option.map_some, perform]

/-! ## Distinct keys -/

/-- An operation keeps keys distinct. -/
theorem distinct_perform (o : Operation) (c : Entries Value) (hc : c.Distinct)
    (h : (o.perform c).2.length < 2 ^ 63) : (o.perform c).2.Distinct := by
  cases o with
  | insert key w => exact distinct_insert c key w hc
  | entry key w =>
      -- A write into an entry that is there or has just been made is an insertion.
      rw [perform]
      dsimp only
      rw [overwrite_ensure]
      exact distinct_insert c key w hc
  | overwrite key w =>
      rw [perform, Distinct, keys_overwrite]
      exact hc
  | remove key =>
      rw [perform, Distinct, keys_erase]
      exact List.Nodup.erase key hc
  | removeFirst => exact List.Nodup.sublist ((List.tail_sublist c).map Prod.fst) hc
  | removeLast => exact List.Nodup.sublist ((List.dropLast_sublist c).map Prod.fst) hc
  | push w =>
      -- There is an index left for the new entry, as there were fewer before.
      rw [perform, length_push] at h
      exact distinct_push c w hc (Nat.lt_of_succ_lt h)
  | prepend vs =>
      rw [perform, length_prepend] at h
      exact distinct_prepend c vs hc (Nat.le_of_lt h)
  | renumber =>
      -- All indices are written anew, so it is the names that have to be distinct.
      rw [perform, length_renumber] at h
      exact distinct_renumber c (Slots.nodup_names_slots c hc) (Nat.le_of_lt h)
  | ofValues vs =>
      rw [perform, length_ofValues] at h
      exact (keyedBy_ofValues Key.covers_any vs (Nat.le_of_lt h)).1
  | collect pairs => exact distinct_collect pairs

end Operation

/-- The containers that operations make out of nothing, with fewer than 2^63 entries each time. -/
inductive Built : Entries Value → Prop where
  | nil : Built []
  | step {c : Entries Value} (o : Operation) : Built c →
      (o.perform c).2.length < 2 ^ 63 → Built (o.perform c).2

theorem Built.distinct {c : Entries Value} (h : Built c) : c.Distinct := by
  induction h with
  | nil => exact List.nodup_nil
  | step o _ hroom ih => exact o.distinct_perform _ ih hroom

/-! ## Laws -/

/-- A value has been written under a key: it is what is read there now, nothing else reads
    otherwise, and the key stands where it stood, or last if it is new. -/
structure Puts (c d : Entries α) (key : Key) (w : α) : Prop where
  self : get? d key = some w
  others : ∀ other, other ≠ key → get? d other = get? c other
  keys_eq : keys d = if key ∈ keys c then keys c else keys c ++ [key]

/-- A key has been removed: nothing is read there, nothing else reads otherwise, and the other keys
    are in their order. -/
structure Drops (c d : Entries α) (key : Key) : Prop where
  self : get? d key = none
  others : ∀ other, other ≠ key → get? d other = get? c other
  keys_eq : keys d = (keys c).filter (· ≠ key)

/-- An entry has been taken out, if there was one. -/
def Loses (c d : Entries α) : Option (Key × α) → Prop
  | some e => Drops c d e.1
  | none => d = c

/-- Values have been put in front. Each of them has an entry of its own, and behind them there is
    one for each old entry, with the same value, and with the same name if it had one. The indices
    are 0, 1, 2, … in entry order, and under each name the same is read as before. -/
structure Fronts (c d : Entries α) (vs : List α) : Prop where
  slots_eq : d.slots = vs.map (fun v => (none, v)) ++ c.slots
  indices_eq :
    indices d = (List.range (vs.length + (indices c).length)).map fun i : Nat => (i : Int)
  named : ∀ t, get? d (.name t) = get? c (.name t)

/-- The law of an operation: which answer it gives, and what becomes of the container. -/
def Operation.Meets : Operation → Entries Value → Answer × Entries Value → Prop
  | .insert key w, c, (a, d) => a = .value (c.get? key) ∧ Puts c d key w
  | .entry key w, c, (a, d) => a = .value (some ((c.get? key).getD .null)) ∧ Puts c d key w
  | .overwrite key w, c, (a, d) =>
    a = .value (c.get? key) ∧ if key ∈ keys c then Puts c d key w else d = c
  | .remove key, c, (a, d) => a = .value (c.get? key) ∧ Drops c d key
  | .removeFirst, c, (a, d) => a = .taken c.head? ∧ Loses c d c.head?
  | .removeLast, c, (a, d) => a = .taken c.getLast? ∧ Loses c d c.getLast?
  | .push w, c, (a, d) =>
    a = .key (.index c.nextIndex) ∧ .index c.nextIndex ∉ keys c ∧ Puts c d (.index c.nextIndex) w
  | .prepend vs, c, (a, d) => a = .done ∧ Fronts c d vs
  | .renumber, c, (a, d) => a = .done ∧ Fronts c d []
  | .ofValues vs, _, (a, d) => a = .done ∧ Fronts [] d vs
  | .collect pairs, _, (a, d) =>
    a = .done ∧ keys d = (keys pairs).eraseDups ∧ ∀ key, get? d key = get? pairs.reverse key

theorem puts_insert (c : Entries α) (key : Key) (w : α) : Puts c (insert c key w) key w :=
  ⟨get?_insert_self c key w, fun other hne => get?_insert_of_ne c key other w hne,
    keys_insert c key w⟩

theorem puts_overwrite (c : Entries α) (key : Key) (w : α) (h : key ∈ keys c) :
    Puts c (overwrite c key w) key w := by
  refine ⟨get?_overwrite_self c key w ((isSome_get?_iff c key).mpr h),
    fun other hne => get?_overwrite_of_ne c key other w hne, ?_⟩
  rw [keys_overwrite, if_pos h]

/-- A push is an insertion, since the next index is new. -/
theorem puts_push (c : Entries α) (w : α) (h : c.length < 2 ^ 63) :
    Puts c (push c w) (.index (nextIndex c)) w := by
  rw [push, ← insert_of_not_mem c _ w (nextIndex_not_mem_keys c h)]
  exact puts_insert c _ w

theorem drops_erase (c : Entries α) (key : Key) (hc : c.Distinct) : Drops c (erase c key) key :=
  ⟨get?_erase_self c key hc, fun other hne => get?_erase_of_ne c key other hne,
    keys_erase_of_distinct c key hc⟩

theorem loses_head? (c : Entries α) (hc : c.Distinct) : Loses c c.tail c.head? := by
  cases c with
  | nil => rfl
  | cons e c =>
      -- A search for the first key stops at once.
      have hdrops := drops_erase (e :: c) e.1 hc
      rwa [erase, if_pos rfl] at hdrops

/-- No other entry has the key of the last one, so removing that key takes out the last entry. -/
theorem loses_getLast? (c : Entries α) (hc : c.Distinct) : Loses c c.dropLast c.getLast? := by
  rcases List.eq_nil_or_concat c with rfl | ⟨front, e, rfl⟩
  · rfl
  · rw [List.concat_eq_append] at hc ⊢
    have hdrops := drops_erase (front ++ [e]) e.1 hc
    rw [Distinct, keys_append, List.nodup_append] at hc
    have hfront : e.1 ∉ keys front := fun hmem => hc.2.2 _ hmem e.1 List.mem_cons_self rfl
    rw [erase_append _ _ _ hfront, erase, if_pos rfl, List.append_nil] at hdrops
    rw [List.dropLast_concat, List.getLast?_concat]
    exact hdrops

/-- What is renumbered has the values in front if its slots have them. -/
theorem fronts_renumber (c d : Entries α) (vs : List α)
    (hslots : d.slots = vs.map (fun v => (none, v)) ++ c.slots) (hroom : d.length ≤ 2 ^ 63) :
    Fronts c (renumber d) vs := by
  refine ⟨by rw [slots_renumber, hslots], ?_, fun t => ?_⟩
  · -- Every value in front gets an index, and so does every old entry that had one.
    have hcount : vs.length + (indices c).length = Slots.unnamed d.slots := by
      rw [hslots, Slots.unnamed_append, Slots.unnamed_map_none, length_indices]
    have hfits : Slots.unnamed d.slots ≤ d.length := by
      rw [← length_indices]
      exact length_indices_le d
    rw [renumber, ← Slots.number_slots, Slots.indices_number, hcount, List.range_eq_range']
    refine List.map_congr_left fun i hi => Int64.toInt_ofNat_of_lt ?_
    rw [List.mem_range'_1] at hi
    omega
  · -- No value in front has a name.
    have hfront : Slots.find? (vs.map fun v => (none, v)) t = none := by
      rw [Slots.find?_eq_none_iff, names_unnamed]
      exact List.not_mem_nil
    rw [← Slots.find?_slots, slots_renumber, hslots, Slots.find?_append, hfront, Option.none_or,
      Slots.find?_slots]

theorem fronts_prepend (c : Entries α) (vs : List α) (hroom : vs.length + c.length ≤ 2 ^ 63) :
    Fronts c (prepend c vs) vs := by
  refine fronts_renumber c _ vs (by rw [slots_append, slots_ofValues]) ?_
  rwa [List.length_append, length_ofValues]

/-- Operations follow their laws where keys are distinct. -/
theorem meets_perform (o : Operation) (c : Entries Value) (hc : c.Distinct)
    (h : (o.perform c).2.length < 2 ^ 63) : o.Meets c (o.perform c) := by
  cases o with
  | insert key w => exact ⟨rfl, puts_insert c key w⟩
  | entry key w =>
      refine ⟨congrArg Answer.value (get?_ensure c key .null), ?_⟩
      rw [overwrite_ensure]
      exact puts_insert c key w
  | overwrite key w =>
      refine ⟨rfl, ?_⟩
      split
      · rename_i hkey
        exact puts_overwrite c key w hkey
      · rename_i hkey
        exact overwrite_of_not_mem c key w hkey
  | remove key => exact ⟨rfl, drops_erase c key hc⟩
  | removeFirst => exact ⟨rfl, loses_head? c hc⟩
  | removeLast => exact ⟨rfl, loses_getLast? c hc⟩
  | push w =>
      rw [Operation.perform, length_push] at h
      have hroom := Nat.lt_of_succ_lt h
      exact ⟨rfl, nextIndex_not_mem_keys c hroom, puts_push c w hroom⟩
  | prepend vs =>
      rw [Operation.perform, length_prepend] at h
      exact ⟨rfl, fronts_prepend c vs (Nat.le_of_lt h)⟩
  | renumber =>
      rw [Operation.perform, length_renumber] at h
      exact ⟨rfl, fronts_renumber c c [] rfl (Nat.le_of_lt h)⟩
  | ofValues vs =>
      rw [Operation.perform, length_ofValues] at h
      refine ⟨rfl, ?_⟩
      rw [← prepend_nil]
      exact fronts_prepend [] vs (Nat.le_of_lt h)
  | collect pairs => exact ⟨rfl, keys_collect pairs, get?_collect pairs⟩

/-- A container that operations have made is an ordered map, whatever they were and whatever keys
    they used: its keys are distinct, and each operation that leaves fewer than 2^63 entries gives
    a result, which is what the law of the operation says. -/
theorem Built.refines_ordered_map {c : Entries Value} (hc : Built c) (o : Operation)
    (hroom : (o.perform c).2.length < 2 ^ 63) :
    c.Distinct ∧ o.perform? c = some (o.perform c) ∧ o.Meets c (o.perform c) :=
  ⟨hc.distinct, o.perform?_eq c hroom, meets_perform o c hc.distinct hroom⟩

/-- A value is pushed past the largest index, so the first free index comes last. Then values are
    put in front, and all indices run in entry order again. -/
theorem ordered_map_past_largest_index :
    let c : Entries Value := [(.index Int64.maxValue, .string "a"), (.index 0, .string "b"),
      (.name "k", .null)]
    let o := Operation.prepend [.int 1, .int 2]
    Built c ∧ (o.perform c).2.length < 2 ^ 63 ∧ c.Distinct ∧
      o.perform? c = some (.done, [(.index 0, .int 1), (.index 1, .int 2),
        (.index 2, .string "a"), (.index 3, .string "b"), (.name "k", .null)]) ∧
      o.Meets c (o.perform c) := by
  intro c o
  have hfirst : Built [(.index Int64.maxValue, .string "a")] :=
    Built.nil.step (.insert (.index Int64.maxValue) (.string "a")) (by decide)
  have hpushed : Built [(.index Int64.maxValue, .string "a"), (.index 0, .string "b")] :=
    hfirst.step (.push (.string "b")) (by decide)
  have hbuilt : Built c := hpushed.step (.insert (.name "k") .null) (by decide)
  have hroom : (o.perform c).2.length < 2 ^ 63 := by decide
  rcases Built.refines_ordered_map hbuilt o hroom with ⟨hdistinct, hchecked, hlaw⟩
  exact ⟨hbuilt, hroom, hdistinct, hchecked, hlaw⟩

end Entries

end DocTree
