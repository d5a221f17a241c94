import Mathlib
import DocTree.Proofs.Forest.Independence

/-!
# Mutations in Succession

Mutations through one view, one after the other. Each of them finds what the one before it has
written, and loads the view anew. So a run of them comes to one write, of the container that
their pure contents make of the first one in turn, and what they answer can be told from that
container as well. A run that ends with the container it began with leaves the documents as
they were.

## Main definitions

* `Mutation.resultAll`, `Mutation.replyAll`: the pure content of a run.

## Theorems

* `performAll_of_holds`: a run of mutations as one write.
* `rewritten_performAll`: the effect of a run.
-/

namespace DocTree

namespace Mutation

open Forest

/-- The container that mutations make of another, one after the other. -/
def resultAll (ms : List Mutation) (c : Entries Value) : Entries Value :=
  ms.foldl (fun c m => m.result c) c

/-- What mutations answer, one after the other. -/
def replyAll : List Mutation → Entries Value → List (Option Reply)
  | [], _ => []
  | m :: ms, c => m.reply c :: replyAll ms (m.result c)

variable {f : Forest} {n : ViewId} {v : View} {c : Entries Value}

theorem resultAll_cons (m : Mutation) (ms : List Mutation) (c : Entries Value) :
    resultAll (m :: ms) c = resultAll ms (m.result c) := rfl

theorem performAll_cons (m : Mutation) (ms : List Mutation) (f : Forest) (n : ViewId) :
    performAll (m :: ms) f n = ((m.perform f n).1 :: (performAll ms (m.perform f n).2 n).1,
      (performAll ms (m.perform f n).2 n).2) := rfl

theorem perform_of_holds (m : Mutation) (h : f.Holds n v c) (hm : m.isRefused = false) :
    m.perform f n = (m.reply c, (f.write n (.container (m.result c))).reload n) :=
  m.perform_of_container? f n c ((container?_eq_some_iff f n c).mpr ⟨v, h⟩) hm

/-- A run of mutations is one write. -/
theorem performAll_of_holds (m : Mutation) (ms : List Mutation) (h : f.Holds n v c)
    (hm : ∀ m' ∈ m :: ms, m'.isRefused = false) :
    performAll (m :: ms) f n = (replyAll (m :: ms) c,
      (f.write n (.container (resultAll (m :: ms) c))).reload n) := by
  -- Induction on the mutations behind the first one.
  induction ms generalizing m f v c with
  | nil =>
      rw [performAll_cons, m.perform_of_holds h (hm m List.mem_cons_self)]
      rfl
  | cons m' ms ih =>
      have hsplit := List.forall_mem_cons.mp hm
      have hrest := (rewritten_write f n v c (m.result c) h).holds h
      -- The rest is one write as well, and of the two writes the second is seen.
      rw [performAll_cons, m.perform_of_holds h hsplit.1, ih m' hrest hsplit.2,
        reload_write_reload_write h]
      rfl

/-- A run of mutations answers what its pure content says, and has the effect of it. -/
theorem rewritten_performAll (m : Mutation) (ms : List Mutation) (h : f.Holds n v c)
    (hm : ∀ m' ∈ m :: ms, m'.isRefused = false) :
    (performAll (m :: ms) f n).1 = replyAll (m :: ms) c ∧
      f.Rewritten (performAll (m :: ms) f n).2 n v (resultAll (m :: ms) c) := by
  rw [performAll_of_holds m ms h hm]
  exact ⟨rfl, rewritten_write f n v c _ h⟩

end Mutation

end DocTree
