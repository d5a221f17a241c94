import Mathlib
import DocTree.Proofs.Decoding
import DocTree.Proofs.Forest.KeyedBy

/-!
# Well-Keyed Forests

Whatever a program does, the documents stay well-keyed: every container at every depth
has distinct keys, each the one that its own text denotes. So no document is ever
written with two members of one name.

The program starts from values it has decoded, and the arguments of its actions are
decoded values again, or values it has read from the forest before. What it has read is
part of the history, so a *course* of actions is a forest together with the values read
on the way, and the invariant is about both.

Courses are about forests that fit into memory, since indices could run out otherwise.

## Main definitions

* `Value.Obtainable`: the values that a program can come by.
* `Forest.Offers`: the values that it can read.
* `Course`: what a program may have done, and read.

## Theorems

* `wellKeyed_of_obtainable`: obtainable values are well-keyed.
* `wellKeyed_of_offers`: so are the values that it can read.
* `Course.documents_wellKeyed`: all documents stay well-keyed.
-/

namespace DocTree

namespace Value

/-- The values that a program can come by, having seen some: decoded values, scalars, sequences
    of such values, and what it has seen. -/
inductive Obtainable (seen : List Value) : Value → Prop
  | json (text : String) (v : Value) : ofJson text = .ok v → Obtainable seen v
  | yaml (text : String) (v : Value) : ofYaml text = .ok v → Obtainable seen v
  | tree (t : Tree) : Obtainable seen (ofTree t)
  | scalar (v : Value) : v.isContainer = false → Obtainable seen v
  | sequence (vs : List Value) : (∀ v ∈ vs, Obtainable seen v) → Obtainable seen (sequence vs)
  | seen (v : Value) : v ∈ seen → Obtainable seen v

/-- Obtainable values are well-keyed. -/
theorem wellKeyed_of_obtainable (seen : List Value) (hseen : ∀ v ∈ seen, v.WellKeyed)
    (v : Value) (h : v.Obtainable seen) (hfits : v.Fits) : v.WellKeyed := by
  -- Induction on how the value was come by: what has been seen is well-keyed by assumption.
  induction h with
  | json text v hv => exact wellKeyed_ofJson text v hv hfits
  | yaml text v hv => exact wellKeyed_ofYaml text v hv hfits
  | tree t => exact wellKeyed_ofTree t hfits
  | scalar v hv => exact keyedBy_of_scalar v hv
  | sequence vs _ ih =>
      have hlength := length_le_of_fits _ hfits
      rw [Entries.length_ofValues] at hlength
      refine keyedBy_sequence Key.covers_canonical vs (fun v hv => ih v hv ?_) hlength
      exact fits_of_mem_values _ v hfits (by rwa [Entries.values_ofValues])
  | seen v hv => exact hseen v hv

end Value

namespace Forest

/-- The values that a program can read: what is in the slot of a view, and what a mutation would
    take out of it. -/
inductive Offers (f : Forest) : Value → Prop
  | value (n : ViewId) : Offers f (f.value n)
  | taken (n : ViewId) (m : Mutation) (v : Value) :
      (m.perform f n).1 = some (.taken v) → Offers f v

/-- What can be read of a well-keyed forest is well-keyed. -/
theorem wellKeyed_of_offers (f : Forest) (hf : f.KeyedBy Key.Canonical) (v : Value)
    (h : f.Offers v) : v.WellKeyed := by
  cases h with
  | value n => exact keyedBy_value f hf n
  | taken n m _ htaken =>
      rcases m.perform_cases f n with hnone | ⟨w, c, hw, hwrite⟩
      · rw [hnone] at htaken
        exact absurd htaken (by simp)
      · rw [hwrite] at htaken
        -- What is taken out is the value of an entry.
        have hkeyed := keyedBy_value f hf n
        rw [hw.value, Value.keyedBy_container_iff] at hkeyed
        refine hkeyed.2 v ?_
        cases m with
        | shift =>
            simp only [Mutation.reply, Option.map_eq_some_iff, Reply.taken.injEq] at htaken
            rcases htaken with ⟨e, he, rfl⟩
            exact List.mem_map_of_mem (List.mem_of_head? he)
        | pop =>
            simp only [Mutation.reply, Option.map_eq_some_iff, Reply.taken.injEq] at htaken
            rcases htaken with ⟨e, he, rfl⟩
            exact List.mem_map_of_mem (List.mem_of_getLast? he)
        | _ => simp [Mutation.reply] at htaken

end Forest

/-- What a program may have done: the forest that its actions have led to, and the values that it
    has read on the way. It starts from documents, and acts with arguments, that it can come by,
    and there is always memory for the documents. -/
inductive Course : Forest → List Value → Prop
  | start (documents : List Value) :
      (∀ v ∈ documents, v.Obtainable [] ∧ v.Fits) → Course (.ofDocuments documents) []
  | act (f : Forest) (seen : List Value) (a : Action) :
      Course f seen → (∀ v ∈ a.arguments, v.Obtainable seen ∧ v.Fits) → (f.act a).Fits →
      Course (f.act a) seen
  | read (f : Forest) (seen : List Value) (v : Value) :
      Course f seen → f.Offers v → Course f (v :: seen)

namespace Course

/-- Along a course the documents stay well-keyed, and so is everything that is read. -/
theorem wellKeyed {f : Forest} {seen : List Value} (h : Course f seen) :
    f.KeyedBy Key.Canonical ∧ ∀ v ∈ seen, v.WellKeyed := by
  -- The two parts go together, since what is read comes from the documents and may be written to
  -- them later.
  induction h with
  | start documents hdocuments =>
      refine ⟨fun v hv => ?_, fun v hv => absurd hv List.not_mem_nil⟩
      rcases hdocuments v (by simpa [Forest.ofDocuments] using hv) with ⟨hv, hfits⟩
      exact Value.wellKeyed_of_obtainable [] (fun _ h => absurd h List.not_mem_nil) v hv hfits
  | act f seen a _ harguments hfits ih =>
      refine ⟨a.keyedBy_act Key.covers_canonical f ih.1 (fun v hv => ?_) hfits, ih.2⟩
      rcases harguments v hv with ⟨hv, hfits⟩
      exact Value.wellKeyed_of_obtainable seen ih.2 v hv hfits
  | read f seen v _ hv ih =>
      refine ⟨ih.1, List.forall_mem_cons.mpr ⟨?_, ih.2⟩⟩
      exact Forest.wellKeyed_of_offers f ih.1 v hv

/-- Whatever a program does, every container at every depth of every document has distinct keys,
    each of them the one that its text denotes. So no object that a document is written as has two
    members of one name. -/
theorem documents_wellKeyed {f : Forest} {seen : List Value} (h : Course f seen) :
    ∀ v ∈ f.documents, v.WellKeyed ∧ (Tree.ofValue v).DistinctNames :=
  fun v hv => ⟨h.wellKeyed.1 v hv, Tree.distinctNames_ofValue v (h.wellKeyed.1 v hv)⟩

/-- A document is appended to itself, and then queried through two wildcards. -/
theorem documents_wellKeyed_of_self_append :
    let v := Value.ofTree (.object [("a", .list [.integer 1])])
    let f := ((Forest.ofDocuments [v]).act (.root 0)).act (.mutate 0 (.append [v]))
    let g := f.act (.navigate 0 (.resolve "*/*" "/"))
    Course g [v] ∧ ∀ w ∈ g.documents, w.WellKeyed ∧ (Tree.ofValue w).DistinctNames := by
  intro v f g
  have hstart : Course (.ofDocuments [v]) [] := by
    refine .start [v] fun w hw => ?_
    rw [List.mem_singleton.mp hw]
    exact ⟨.tree _, by decide⟩
  have hroot : Course ((Forest.ofDocuments [v]).act (.root 0)) [] :=
    .act _ _ (.root 0) hstart (fun w hw => absurd hw List.not_mem_nil) (by decide)
  have hread : Course ((Forest.ofDocuments [v]).act (.root 0)) [v] :=
    .read _ _ _ hroot (.value 0)
  have hf : Course f [v] := by
    refine .act _ _ (.mutate 0 (.append [v])) hread (fun w hw => ?_) (by decide)
    rw [List.mem_singleton.mp hw]
    exact ⟨.seen v List.mem_cons_self, by decide⟩
  have hg : Course g [v] :=
    .act f _ (.navigate 0 (.resolve "*/*" "/")) hf (fun w hw => absurd hw List.not_mem_nil)
      (by decide +kernel)
  exact ⟨hg, documents_wellKeyed hg⟩

end Course

end DocTree
