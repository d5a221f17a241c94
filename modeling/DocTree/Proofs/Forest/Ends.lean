import Mathlib
import DocTree.Proofs.Sequence
import DocTree.Proofs.Forest.Succession

/-!
# Adding at an End and Taking Off Again

Values that have been appended come off by popping, the last one first, and values that have
been put in front come off by shifting, in order. This holds for every container, not only for
sequences.

At the back it does not matter under which indices the values went in. A pop takes the last
entry whatever its key is, and it leaves the keys of the others alone, so the container comes
back as it was. In front the values go in with a renumbering, and there is another one with each
shift. A renumbering does not see the indices that are there before it, so all of them together
come to one, and the container comes back renumbered once.

## Theorems

* `pops_of_append`: popping the entries that are behind others.
* `shifts_of_append`: shifting the entries that are in front of others.
* `append_pops`, `prepend_shifts`: adding values and taking as many off, on one container.
* `added_comes_off`: what is added at an end of a container comes off again.
-/

namespace DocTree

namespace Mutation

open Forest

/-- Entries behind others are popped from the last one on, and the others are left. -/
theorem pops_of_append (c added : Entries Value) :
    replyAll (List.replicate added.length .pop) (c ++ added)
        = (Entries.values added).reverse.map (fun w => some (.taken w)) ∧
      resultAll (List.replicate added.length .pop) (c ++ added) = c := by
  induction added using List.reverseRecOn with
  | nil => exact ⟨rfl, List.append_nil c⟩
  | append_singleton added e ih =>
      -- The last entry goes whatever its key is, and no other key is changed by that.
      have hpop : result .pop (c ++ (added ++ [e])) = c ++ added := by
        rw [result, ← List.append_assoc, List.dropLast_concat]
      have hreply : reply .pop (c ++ (added ++ [e])) = some (.taken e.2) := by
        rw [reply, ← List.append_assoc, List.getLast?_concat, Option.map_some]
      rw [List.length_append, List.length_singleton, List.replicate_succ, replyAll,
        resultAll_cons, hpop, hreply, ih.1, Entries.values_append, List.reverse_append]
      exact ⟨rfl, ih.2⟩

/-- Entries in front of others are shifted in order, and the others are left, renumbered. -/
theorem shifts_of_append (front c : Entries Value) :
    replyAll (List.replicate front.length .shift) (Entries.renumber (front ++ c))
        = (Entries.values front).map (fun w => some (.taken w)) ∧
      resultAll (List.replicate front.length .shift) (Entries.renumber (front ++ c))
        = Entries.renumber c := by
  induction front with
  | nil => exact ⟨rfl, rfl⟩
  | cons e front ih =>
      -- What is left is renumbered a second time, which is the same as once without the first.
      have hshift : result .shift (Entries.renumber (e :: front ++ c))
          = Entries.renumber (front ++ c) := by
        rw [result, Entries.renumber_tail_renumber, List.cons_append, List.tail_cons]
      have hreply : reply .shift (Entries.renumber (e :: front ++ c)) = some (.taken e.2) := by
        have hhead := congrArg (Option.map Reply.taken) (Entries.head?_renumber (e :: front ++ c))
        rwa [Option.map_map] at hhead
      rw [List.length_cons, List.replicate_succ, replyAll, resultAll_cons, hshift, hreply, ih.1]
      exact ⟨rfl, ih.2⟩

/-- The pure content of an append and as many pops: the container stays what it is. -/
theorem append_pops (c : Entries Value) (vs : List Value) :
    replyAll (.append vs :: List.replicate vs.length .pop) c
        = some .done :: vs.reverse.map (fun w => some (.taken w)) ∧
      resultAll (.append vs :: List.replicate vs.length .pop) c = c := by
  rcases Entries.foldl_push c vs with ⟨added, hfold, hvalues⟩
  have hlength : added.length = vs.length := by
    rw [← hvalues, Entries.values, List.length_map]
  have hpops := pops_of_append c added
  rw [hlength, hvalues, ← hfold] at hpops
  exact ⟨congrArg (some Reply.done :: ·) hpops.1, hpops.2⟩

/-- The pure content of a prepend and as many shifts: the container is renumbered. -/
theorem prepend_shifts (c : Entries Value) (vs : List Value) :
    replyAll (.prepend vs :: List.replicate vs.length .shift) c
        = some .done :: vs.map (fun w => some (.taken w)) ∧
      resultAll (.prepend vs :: List.replicate vs.length .shift) c = Entries.renumber c := by
  have hshifts := shifts_of_append (Entries.ofValues vs) c
  rw [Entries.length_ofValues, Entries.values_ofValues] at hshifts
  exact ⟨congrArg (some Reply.done :: ·) hshifts.1, hshifts.2⟩

theorem accepted_replicate (m m' : Mutation) (k : Nat) (hm : m.isRefused = false)
    (hm' : m'.isRefused = false) : ∀ x ∈ m :: List.replicate k m', x.isRefused = false :=
  List.forall_mem_cons.mpr ⟨hm, fun _ hx => List.eq_of_mem_replicate hx ▸ hm'⟩

/-- What is added at an end of a container comes off again at that end. After as many pops as
    values have been appended, which answer with these values from the last one on, the container
    is as it was, with its keys in their order, and so are all documents. After as many shifts as
    values have been put in front, which answer with them in order, the container is renumbered:
    each index is the number of indices before it, and each name is where it was. -/
theorem added_comes_off (f : Forest) (n : ViewId) (v : View) (c : Entries Value)
    (h : f.Holds n v c) (vs : List Value) :
    let popped := performAll (.append vs :: List.replicate vs.length .pop) f n
    let shifted := performAll (.prepend vs :: List.replicate vs.length .shift) f n
    (popped.1 = some .done :: vs.reverse.map (fun w => some (.taken w)) ∧
      f.Rewritten popped.2 n v c ∧ popped.2.documents = f.documents) ∧
    (shifted.1 = some .done :: vs.map (fun w => some (.taken w)) ∧
      f.Rewritten shifted.2 n v (Entries.renumber c)) ∧
    Entries.renumber c = c.mapIdx fun i e =>
      (e.1.reindex ((c.take i).countP (·.1.isIndex)), e.2) := by
  intro popped shifted
  have hpopped : popped = _ := performAll_of_holds (append vs) (List.replicate vs.length pop) h
    (accepted_replicate _ _ _ rfl rfl)
  have hshifted : shifted = _ :=
    performAll_of_holds (prepend vs) (List.replicate vs.length shift) h
      (accepted_replicate _ _ _ rfl rfl)
  rw [(append_pops c vs).1, (append_pops c vs).2] at hpopped
  rw [(prepend_shifts c vs).1, (prepend_shifts c vs).2] at hshifted
  rw [hpopped, hshifted]
  refine ⟨⟨rfl, rewritten_write f n v c c h, ?_⟩,
    ⟨rfl, rewritten_write f n v c (Entries.renumber c) h⟩, Entries.renumber_eq_mapIdx c⟩
  -- The first run comes to writing what was there.
  rw [reload_eq_update, documents_update, documents_write_self h]

/-- Two values at either end of a container with the largest index, a negative one, and a name
    between them. -/
theorem added_comes_off_of_sparse :
    let c : Entries Value := [(.index Int64.maxValue, .int 1), (.name "k", .null),
      (.index (-3), .bool true)]
    let f := ((((ofDocuments [.container [(.name "a", .container c)]]).root 0).2).child 0
      (.name "a")).2
    let v : View := ⟨0, [.name "a"], some (.name "a"), some 0,
      .container (Snapshot.ofKeys (Entries.keys c)) []⟩
    let vs := [Value.int 8, Value.int 9]
    let popped := performAll [.append vs, .pop, .pop] f 1
    let shifted := performAll [.prepend vs, .shift, .shift] f 1
    f.Holds 1 v c ∧
      popped.1 = [some .done, some (.taken (.int 9)), some (.taken (.int 8))] ∧
      f.Rewritten popped.2 1 v c ∧ popped.2.documents = f.documents ∧
      shifted.1 = [some .done, some (.taken (.int 8)), some (.taken (.int 9))] ∧
      f.Rewritten shifted.2 1 v
        [(.index 0, .int 1), (.name "k", .null), (.index 1, .bool true)] := by
  intro c f v vs popped shifted
  have hholds : f.Holds 1 v c := ⟨rfl, rfl, rfl⟩
  rcases added_comes_off f 1 v c hholds vs with
    ⟨⟨hpopped, hback, hdocuments⟩, ⟨hshifted, hrenumbered⟩, _⟩
  exact ⟨hholds, hpopped, hback, hdocuments, hshifted, hrenumbered⟩

end Mutation

end DocTree
