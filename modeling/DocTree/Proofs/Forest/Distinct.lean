import Mathlib
import DocTree.Proofs.Forest.KeyedBy
import DocTree.Proofs.Forest.Sound

/-!
# Snapshots with Distinct Keys

A container that a program can make holds each of its keys once. On lists of entries that
has to be asked for, but only of what comes from outside: the documents that a run starts
from and the arguments of its actions. From there on the documents keep distinct keys, for
as long as they fit into memory.

The snapshots have distinct keys as well. That does not follow from the documents at hand,
since what is loaded from a document stays in the snapshots when the document has changed.
But a look makes no document worse, so whatever it loads was still there at its end, and a
mutation loads what it has written.

## Main definitions

* `Forest.Distinct`: every container of every document holds distinct keys.
* `Forest.ReachableDistinct`: what runs lead to that are given values with distinct keys.

## Theorems

* `distinct_act`: an action on values with distinct keys keeps the keys of documents distinct.
* `ReachableDistinct.distinct`: so they are distinct after every run.
* `distinct_value`: a view reads a value with distinct keys.
* `nodup_keys_looks`, `nodup_keys_act`: looks and actions load distinct keys.
* `ReachableDistinct.nodup_keys`: every snapshot has distinct keys.
-/

namespace DocTree

namespace Value

mutual

/-- Whether all containers in a value hold distinct keys can be computed. -/
def decidableDistinct : (v : Value) → Decidable v.Distinct
  | container c =>
    have := decidableEntriesDistinct c
    inferInstanceAs (Decidable ((c.map Prod.fst).Nodup ∧ EntriesDistinct c))
  | null | bool _ | int _ | float _ | string _ => isTrue trivial

/-- The same for the values of entries. -/
def decidableEntriesDistinct : (c : List (Key × Value)) → Decidable (EntriesDistinct c)
  | [] => isTrue trivial
  | (_, v) :: c =>
    have := decidableDistinct v
    have := decidableEntriesDistinct c
    inferInstanceAs (Decidable (v.Distinct ∧ EntriesDistinct c))

end

instance (v : Value) : Decidable v.Distinct :=
  decidableDistinct v

/-- What is read at any location has distinct keys at every depth. -/
theorem distinct_lookup (v u : Value) (p : List Key) (hv : v.Distinct)
    (h : v.lookup p = some u) : u.Distinct := by
  refine of_lookup (fun c hc x hx => ?_) v u p hv h
  rcases List.mem_map.mp hx with ⟨e, he, rfl⟩
  exact distinct_of_mem c e hc.2 he

/-- The keys of a value with distinct keys. -/
theorem nodup_keys (v : Value) (h : v.Distinct) : v.keys.Nodup := by
  cases v with
  | container c => exact h.1
  | _ => exact List.nodup_nil

end Value

namespace Forest

/-- Every container of every document, at every depth, holds distinct keys. -/
def Distinct (f : Forest) : Prop :=
  ∀ v ∈ f.documents, v.Distinct

instance (f : Forest) : Decidable f.Distinct :=
  inferInstanceAs (Decidable (∀ v ∈ f.documents, v.Distinct))

/-- Documents with distinct keys have distinct keys of any kind. -/
theorem distinct_iff_keyedBy (f : Forest) : f.Distinct ↔ f.KeyedBy fun _ => True :=
  forall₂_congr fun v _ => v.distinct_iff_keyedBy

/-- An action whose arguments have distinct keys leaves the documents with distinct keys, if they
    fit. -/
theorem distinct_act (a : Action) (f : Forest) (hf : f.Distinct)
    (harguments : ∀ v ∈ a.arguments, v.Distinct) (hfits : (f.act a).Fits) :
    (f.act a).Distinct := by
  rw [distinct_iff_keyedBy] at hf ⊢
  exact a.keyedBy_act Key.covers_any f hf
    (fun v hv => v.distinct_iff_keyedBy.mp (harguments v hv)) hfits

/-- Some run leads to this forest from documents without views. The documents that it starts from
    and the arguments of its actions have distinct keys, and there is always memory for the
    documents. -/
inductive ReachableDistinct : Forest → Prop
  | start (documents : List Value) :
      (∀ v ∈ documents, v.Distinct) → ReachableDistinct (ofDocuments documents)
  | act (f : Forest) (a : Action) :
      ReachableDistinct f → (∀ v ∈ a.arguments, v.Distinct) → (f.act a).Fits →
      ReachableDistinct (f.act a)

/-- Such a run is a run. -/
theorem ReachableDistinct.reachable {f : Forest} (h : f.ReachableDistinct) : f.Reachable := by
  induction h with
  | start documents _ => exact ⟨documents, [], rfl⟩
  | act f a _ _ _ ih => exact ih.run [a]

/-- All documents have distinct keys, at every depth. -/
theorem ReachableDistinct.distinct {f : Forest} (h : f.ReachableDistinct) : f.Distinct := by
  induction h with
  | start documents hdocuments =>
      exact fun v hv => hdocuments v (by simpa [ofDocuments] using hv)
  | act f a _ harguments hfits ih => exact distinct_act a f ih harguments hfits

/-! ## What is read -/

variable {f g : Forest}

/-- A slot holds a value with distinct keys. -/
theorem distinct_slotAt? (hf : f.Distinct) (d : DocumentId) (location : List Key) (u : Value)
    (h : f.slotAt? d location = some u) : u.Distinct := by
  rcases Option.bind_eq_some_iff.mp h with ⟨v, hv, hu⟩
  exact Value.distinct_lookup v u location (hf v (Array.mem_of_getElem? hv)) hu

/-- A view reads a value with distinct keys, or null. -/
theorem distinct_value (hf : f.Distinct) (n : ViewId) : (f.value n).Distinct := by
  rw [value]
  cases hslot : f.slot? n with
  | none => trivial
  | some u =>
      rcases Option.bind_eq_some_iff.mp hslot with ⟨v, _, hu⟩
      exact distinct_slotAt? hf v.document v.location u hu

/-- So the keys that a view would load are distinct. -/
theorem nodup_liveKeys (hf : f.Distinct) (n : ViewId) : (f.liveKeys n).Nodup :=
  Value.nodup_keys _ (distinct_value hf n)

theorem Distinct.glances (hf : f.Distinct) (h : Glances f g) : g.Distinct := by
  rwa [Distinct, documents_of_glances f g h]

/-! ## What is loaded -/

/-- A look loads keys of documents as they are, so distinct ones stay distinct. -/
theorem nodup_keys_look (h : Look f g) (hdocuments : f.Distinct) (hf : ∀ n, (f.keys n).Nodup)
    (n : ViewId) : (g.keys n).Nodup := by
  rw [keys]
  cases hs : g.snapshot? n with
  | none => exact List.nodup_nil
  | some s =>
      rw [Option.map_some, Option.getD_some]
      -- The snapshot was there, is that of a new view, is loaded, or has its cursor moved.
      cases obtains_of_look h n s hs with
      | kept _ hkept =>
          have hn := hf n
          rwa [keys, hkept] at hn
      | made d location =>
          refine Value.nodup_keys _ ?_
          cases hslot : f.slotAt? d location with
          | none => trivial
          | some u => exact distinct_slotAt? hdocuments d location u hslot
      | loaded => exact nodup_liveKeys hdocuments n
      -- A cursor moves within the keys that are there.
      | moved t position ht =>
          have hn := hf n
          rwa [keys, ht] at hn

/-- Looks add documents and change none, so those they start from have distinct keys if those they
    lead to do. -/
theorem distinct_of_looks (h : Looks f g) (hg : g.Distinct) : f.Distinct := by
  intro v hv
  rcases Array.mem_iff_getElem?.mp hv with ⟨d, hd⟩
  have hkept := (documents_looks f g h).2 d (Array.getElem?_eq_some_iff.mp hd).choose
  exact hg v (Array.mem_of_getElem? (hkept.trans hd))

/-- The same for looks one after the other. -/
theorem nodup_keys_looks (h : Looks f g) (hg : g.Distinct) (hf : ∀ n, (f.keys n).Nodup) :
    ∀ n, (g.keys n).Nodup := by
  -- From the end of the looks back to their start, since the keys are known to be distinct there.
  induction h with
  | refl => exact hf
  | tail _ hlook ih =>
      have hbefore := distinct_of_looks (.single hlook) hg
      exact nodup_keys_look hlook hbefore (ih hbefore)

/-- A mutation loads the one view that it writes through, and finds there what it has written. -/
theorem nodup_keys_mutation (m : Mutation) (n : ViewId) (hg : (m.perform f n).2.Distinct)
    (hf : ∀ n, (f.keys n).Nodup) (k : ViewId) : ((m.perform f n).2.keys k).Nodup := by
  rcases m.perform_cases f n with hnone | ⟨v, c, hv, hwrite⟩
  · rw [hnone]
    exact hf k
  · have heffect := rewritten_write f n v c (m.result c) hv
    rw [hwrite] at hg ⊢
    -- The view that is written through loads its slot, the others keep their snapshots.
    by_cases hk : k = n
    · rw [hk, heffect.live]
      exact nodup_liveKeys hg n
    · rw [keys, snapshot?, heffect.others k hk]
      exact hf k

/-- Whatever an action loads are distinct keys, if the documents have such afterwards. -/
theorem nodup_keys_act (a : Action) (hg : (f.act a).Distinct) (hf : ∀ n, (f.keys n).Nodup) :
    ∀ n, ((f.act a).keys n).Nodup := by
  cases a with
  | walk v => exact nodup_keys_looks (looks_walk f v) hg hf
  | root d =>
      simp only [act] at hg ⊢
      split
      · rename_i hd
        rw [if_pos hd] at hg
        exact nodup_keys_looks (.single (.root f d hd)) hg hf
      · exact hf
  | hold ns => exact hf
  | navigate n a =>
      simp only [act] at hg ⊢
      split
      · rename_i hn
        rw [if_pos hn] at hg
        exact nodup_keys_looks (looks_navigation a f n) hg hf
      · exact hf
  | mutate n m =>
      simp only [act] at hg ⊢
      split
      · rename_i hn
        rw [if_pos hn] at hg
        exact nodup_keys_mutation m n hg hf
      · exact hf

/-- Every snapshot has distinct keys, stale or not. -/
theorem ReachableDistinct.nodup_keys {f : Forest} (h : f.ReachableDistinct) (n : ViewId) :
    (f.keys n).Nodup := by
  induction h generalizing n with
  | start documents _ =>
      -- At the start there are no views.
      have hempty : (ofDocuments documents).keys n = [] := by
        simp [keys, snapshot?, view?, ofDocuments]
      rw [hempty]
      exact List.nodup_nil
  | act f a h harguments hfits ih =>
      exact nodup_keys_act a (distinct_act a f h.distinct harguments hfits) ih n

/-- A run of actions on values with distinct keys, if there is memory for the documents on the
    way. -/
theorem ReachableDistinct.run {f : Forest} (h : f.ReachableDistinct) (actions : List Action)
    (harguments : ∀ a ∈ actions, ∀ v ∈ a.arguments, v.Distinct)
    (hfits : ∀ i ≤ actions.length, (f.run (actions.take i)).Fits) :
    (f.run actions).ReachableDistinct := by
  induction actions generalizing f with
  | nil => exact h
  | cons a actions ih =>
      rw [List.forall_mem_cons] at harguments
      have hfirst := hfits 1 (Nat.succ_le_succ (Nat.zero_le _))
      refine ih (.act f a h harguments.1 hfirst) harguments.2 fun i hi => ?_
      exact hfits (i + 1) (Nat.succ_le_succ hi)

theorem reachableDistinct_aliased : aliased.ReachableDistinct :=
  (ReachableDistinct.start [.container [(.name "a", .container [])]] (by decide)).run
    [.root 0, .navigate 0 (.child (.name "a")), .root 0, .navigate 2 (.child (.name "a")),
      .mutate 3 (.append [.int 7])] (by decide) (by decide +kernel)

end Forest

end DocTree
