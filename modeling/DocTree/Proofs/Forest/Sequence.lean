import Mathlib
import DocTree.Proofs.Sequence
import DocTree.Proofs.Forest.Succession

/-!
# Sequences as Lists

A sequence is used as a list: values are added at both ends and taken off there, and other
sequences are merged into it. Each of these mutations is one of lists of values as well. A
sequence stands for the list of its values, and what a mutation makes of the sequence stands for
what it makes of the list, so no mutation leads out of the sequences. By induction on a run, all
containers that come up in it are sequences, and its answers are those that the list gives.

What has to be excluded is a merge with something that is neither a sequence nor a scalar, and a
deep write. Both can bring in a key that is not the next index. And there must be room: a value
that is added as the last one needs an index of its own, and there are 2^63 from 0 on.

## Main definitions

* `Mutation.isListOperation`: what can be done to a list as well.
* `Mutation.onList`, `Mutation.replyOnList`: what it makes of a list, and answers on it.
* `Mutation.onListAll`, `Mutation.replyOnListAll`: the same for a run.

## Theorems

* `result_ofValues`, `reply_ofValues`: one mutation of a sequence.
* `run_ofValues`: a run of them.
* `slotAt?_performAll`: a run of them through a view.
* `sequence_behaves_as_list`: sequences behave as lists, and stay sequences.
-/

namespace DocTree

namespace Mutation

open Forest

/-! ## Operations on lists -/

/-- The mutation is one of lists as well: it adds or takes a value at an end, or merges a scalar
    or a sequence. -/
def isListOperation : Mutation → Bool
  | set _ _ _ => false
  | merge (.container c) => Entries.isSequence c
  | _ => true

/-- The list that the mutation makes of another. A scalar is merged as the list of itself. -/
def onList (m : Mutation) (vs : List Value) : List Value :=
  match m with
  | set _ _ _ => vs
  | append ws => vs ++ ws
  | prepend ws => ws ++ vs
  | shift => vs.tail
  | pop => vs.dropLast
  | merge (.container c) => vs ++ Entries.values c
  | merge w => vs ++ [w]

/-- What the mutation answers on a list. There is nothing to take out of an empty one. -/
def replyOnList (m : Mutation) (vs : List Value) : Option Reply :=
  match m with
  | shift => vs.head?.map .taken
  | pop => vs.getLast?.map .taken
  | _ => some .done

/-- The list that mutations make of another, one after the other. -/
def onListAll (ms : List Mutation) (vs : List Value) : List Value :=
  ms.foldl (fun vs m => m.onList vs) vs

/-- What mutations answer on a list, one after the other. -/
def replyOnListAll : List Mutation → List Value → List (Option Reply)
  | [], _ => []
  | m :: ms, vs => m.replyOnList vs :: replyOnListAll ms (m.onList vs)

/-- Nothing that is done to a list is refused. -/
theorem isRefused_of_isListOperation (m : Mutation) (h : m.isListOperation = true) :
    m.isRefused = false := by
  cases m with
  | set path w separator => exact absurd h (by simp [isListOperation])
  | _ => rfl

/-- What is merged into a list are the values of a sequence, or a scalar. -/
theorem toEntries_of_isListOperation (w : Value) (h : (merge w).isListOperation = true) :
    ∃ ws, w.toEntries = Entries.ofValues ws ∧ ∀ vs, (merge w).onList vs = vs ++ ws := by
  cases w with
  | container c => exact ⟨Entries.values c, (Entries.isSequence_iff c).mp h, fun vs => rfl⟩
  | _ => exact ⟨_, rfl, fun vs => rfl⟩

/-! ## One mutation -/

/-- What a mutation makes of a sequence is the sequence of what it makes of the list. -/
theorem result_ofValues (m : Mutation) (vs : List Value) (hm : m.isListOperation = true)
    (hroom : (m.onList vs).length ≤ 2 ^ 63) :
    m.result (Entries.ofValues vs) = Entries.ofValues (m.onList vs) := by
  cases m with
  | set path w separator => exact absurd hm (by simp [isListOperation])
  | append ws => exact Entries.foldl_push_ofValues vs ws hroom
  | prepend ws => exact Entries.prepend_ofValues vs ws
  | shift => exact Entries.renumber_tail_ofValues vs
  | pop => exact Entries.dropLast_ofValues vs
  | merge w =>
      rcases toEntries_of_isListOperation w hm with ⟨ws, hentries, hlist⟩
      rw [hlist] at hroom
      -- The sequence is rebuilt first, and then takes the values of the other one as pushed.
      rw [hlist, result, hentries, Value.mergeEntries, Entries.renumber_ofValues,
        Entries.absorb_ofValues, Entries.foldl_push_ofValues vs ws hroom]

theorem reply_ofValues (m : Mutation) (vs : List Value) :
    m.reply (Entries.ofValues vs) = m.replyOnList vs := by
  cases m with
  | shift => rw [replyOnList, ← Entries.head?_ofValues, Option.map_map]; rfl
  | pop => rw [replyOnList, ← Entries.getLast?_ofValues, Option.map_map]; rfl
  | _ => rfl

/-! ## Runs -/

/-- A run of mutations makes of a sequence what it makes of the list, as long as there is room. -/
theorem run_ofValues (ms : List Mutation) (vs : List Value)
    (hms : ∀ m ∈ ms, m.isListOperation = true)
    (hroom : ∀ run, run <+: ms → (onListAll run vs).length ≤ 2 ^ 63) :
    resultAll ms (Entries.ofValues vs) = Entries.ofValues (onListAll ms vs) ∧
      replyAll ms (Entries.ofValues vs) = replyOnListAll ms vs := by
  induction ms generalizing vs with
  | nil => exact ⟨rfl, rfl⟩
  | cons m ms ih =>
      have hsplit := List.forall_mem_cons.mp hms
      have hfirst := result_ofValues m vs hsplit.1
        (hroom [m] (List.cons_prefix_cons.mpr ⟨rfl, List.nil_prefix⟩))
      have hrest := ih (m.onList vs) hsplit.2 fun run hrun =>
        hroom (m :: run) (List.cons_prefix_cons.mpr ⟨rfl, hrun⟩)
      rw [resultAll_cons, replyAll, hfirst, reply_ofValues, hrest.1, hrest.2]
      exact ⟨rfl, rfl⟩

/-- What a run of mutations leaves in a slot that holds a sequence. -/
theorem slotAt?_performAll {f : Forest} {n : ViewId} {v : View} (ms : List Mutation)
    (vs : List Value) (h : f.Holds n v (Entries.ofValues vs))
    (hms : ∀ m ∈ ms, m.isListOperation = true)
    (hroom : ∀ run, run <+: ms → (onListAll run vs).length ≤ 2 ^ 63) :
    (performAll ms f n).1 = replyOnListAll ms vs ∧
      (performAll ms f n).2.slotAt? v.document v.location
        = some (.container (Entries.ofValues (onListAll ms vs))) := by
  cases ms with
  -- Without a mutation nothing is written, and the slot is as it was.
  | nil => exact ⟨rfl, h.slot⟩
  | cons m ms =>
      have hrun := rewritten_performAll m ms h
        fun m' hm' => m'.isRefused_of_isListOperation (hms m' hm')
      have hlist := run_ofValues (m :: ms) vs hms hroom
      rw [hlist.1, hlist.2] at hrun
      exact ⟨hrun.1, hrun.2.slot⟩

/-- Sequences behave as lists, and stay sequences. In a run of mutations that can be made of a
    list as well, the slot holds a sequence after each of them, which is written as a list; its
    values are those of the list, and so are the answers. Nothing can be taken out of an empty
    sequence. The bound is the one that indices set: of those from 0 on there are 2^63. -/
theorem sequence_behaves_as_list (f : Forest) (n : ViewId) (v : View) (c : Entries Value)
    (h : f.Holds n v c) (hc : c.isSequence = true) (ms : List Mutation)
    (hms : ∀ m ∈ ms, m.isListOperation = true)
    (hroom : ∀ run, run <+: ms → (onListAll run (Entries.values c)).length ≤ 2 ^ 63) :
    (performAll ms f n).1 = replyOnListAll ms (Entries.values c) ∧
    (∀ run, run <+: ms → ∃ d : Entries Value,
      (performAll run f n).2.slotAt? v.document v.location = some (.container d) ∧
        d.isSequence = true ∧ Entries.values d = onListAll run (Entries.values c) ∧
        Tree.ofValue (.container d)
          = .list ((onListAll run (Entries.values c)).map Tree.ofValue)) ∧
    (Entries.values c = [] → (shift.perform f n).1 = none ∧ (pop.perform f n).1 = none) := by
  have hsequence : f.Holds n v (Entries.ofValues (Entries.values c)) :=
    (Entries.isSequence_iff c).mp hc ▸ h
  refine ⟨(slotAt?_performAll ms _ hsequence hms hroom).1, fun run hrun => ?_, fun hempty => ?_⟩
  · -- A beginning of the run is a run of its own.
    have hslot := (slotAt?_performAll run _ hsequence (fun m hm => hms m (hrun.subset hm))
      fun run' hrun' => hroom run' (hrun'.trans hrun)).2
    have hd := Entries.isSequence_ofValues (onListAll run (Entries.values c))
    refine ⟨_, hslot, hd, Entries.values_ofValues _, ?_⟩
    rw [Tree.ofValue_sequence _ hd, Entries.values_ofValues]
  · rw [hempty] at hsequence
    rw [shift.perform_of_holds hsequence rfl, pop.perform_of_holds hsequence rfl]
    exact ⟨rfl, rfl⟩

/-- All of the operations, from the empty sequence on, with a container and a scalar merged in. -/
theorem sequence_behaves_as_list_from_empty :
    let f := ((ofDocuments [.container []]).root 0).2
    let v : View := ⟨0, [], none, none, .container (Snapshot.ofKeys []) []⟩
    let ms := [pop, append [.int 1, .int 2], prepend [.container [(.name "k", .null)]], shift,
      shift, merge (.container [(.index 0, .string "a"), (.index 1, .container [])]),
      merge (.bool true), pop]
    f.Holds 0 v [] ∧ (∀ m ∈ ms, m.isListOperation = true) ∧
      (∀ run, run <+: ms → (onListAll run []).length ≤ 2 ^ 63) ∧
      (performAll ms f 0).1 = [none, some .done, some .done,
        some (.taken (.container [(.name "k", .null)])), some (.taken (.int 1)), some .done,
        some .done, some (.taken (.bool true))] ∧
      ∃ d : Entries Value, (performAll ms f 0).2.slotAt? 0 [] = some (.container d) ∧
        d.isSequence = true ∧ Entries.values d = [.int 2, .string "a", .container []] := by
  intro f v ms
  have hholds : f.Holds 0 v [] := ⟨rfl, rfl, rfl⟩
  have hms : ∀ m ∈ ms, m.isListOperation = true := by decide
  have hinits : ∀ run ∈ ms.inits, (onListAll run []).length ≤ 2 ^ 63 := by decide
  have hroom : ∀ run, run <+: ms → (onListAll run []).length ≤ 2 ^ 63 :=
    fun run hrun => hinits run ((List.mem_inits _ _).mpr hrun)
  rcases sequence_behaves_as_list f 0 v [] hholds rfl ms hms hroom with ⟨hreplies, hruns, _⟩
  rcases hruns ms (List.prefix_refl ms) with ⟨d, hslot, hd, hvalues, _⟩
  exact ⟨hholds, hms, hroom, hreplies, d, hslot, hd, hvalues⟩

end Mutation

end DocTree
