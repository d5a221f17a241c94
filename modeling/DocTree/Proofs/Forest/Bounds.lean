import Mathlib
import DocTree.Proofs.Forest.Sound

/-!
# Cursors Within Bounds

A cursor is moved by what the snapshot says about itself: the position of its last key, and
the position where the cursor is. The key at the new position is then taken without asking
whether there is one. That is safe because the two positions are never left over from another
snapshot. Whatever loads a view puts new keys, their last position and an unset cursor in
place together, and nothing else changes the keys. The slot does not matter at all: it may have
lost its keys, or be gone, and the cursor still moves along the keys of the snapshot.

To say that no key is missed, moving is defined once more so that it fails where there is none.
A run in which it could fail never does, and comes to what the run comes to in which it cannot.

## Main definitions

* `Snapshot.InBounds`: the positions of a snapshot are positions of its keys.
* `Forest.moveIndexed?`: a move that takes the key for granted.
* `Forest.runIndexed?`: a run that moves in this way.

## Theorems

* `following?_lt`, `preceding?_lt`: where the cursor is moved to there is a key.
* `inBounds_move`, `inBounds_moves`: all snapshots stay in bounds.
* `moveIndexed?_eq`, `runIndexed?_eq`: a move that takes a key for granted finds it, and so do
  all moves of a run.
* `run_stays_in_bounds`: no run misses a key.
-/

namespace DocTree

namespace Snapshot

/-- The last position is that of the last key, if there is one, and the cursor is unset or on a
    key. -/
structure InBounds (s : Snapshot) : Prop where
  aligned : s.Aligned
  cursor : ∀ i, s.cursor = some i → i < s.keys.length

variable {s : Snapshot}

/-- A snapshot that has just been taken is in bounds. -/
theorem inBounds_ofKeys (keys : List Key) : (ofKeys keys).InBounds :=
  ⟨aligned_ofKeys keys, fun _ h => absurd h (by simp [ofKeys])⟩

/-- Forward the cursor is moved up to the last position, and only if there is one. -/
theorem following?_lt (hs : s.InBounds) {i : Nat} (h : s.following? = some i) :
    i < s.keys.length := by
  rw [following?, hs.aligned] at h
  cases hkeys : s.keys with
  | nil =>
      rw [hkeys] at h
      exact absurd h (by simp)
  | cons key keys =>
      rw [hkeys, List.isEmpty_cons, if_neg Bool.false_ne_true, Option.bind_some] at h
      rw [List.length_cons] at h ⊢
      -- An unset cursor goes to the first key, and one on the last key does not move.
      split at h
      · rw [← Option.some.inj h]
        exact Nat.succ_pos _
      · split at h
        · exact absurd h (by simp)
        · rw [← Option.some.inj h]
          omega

/-- Backward the cursor is moved to a position before the one where it is. -/
theorem preceding?_lt (hs : s.InBounds) {i : Nat} (h : s.preceding? = some i) :
    i < s.keys.length := by
  unfold preceding? at h
  split at h
  · exact absurd h (by simp)
  · exact absurd h (by simp)
  · -- Before the first key there is nowhere to go, so the cursor is on a later one.
    rename_i j hcursor
    rw [← Option.some.inj h]
    exact Nat.lt_of_succ_lt (hs.cursor _ hcursor)

/-- Moving the cursor either way keeps it on a key. -/
theorem inBounds_moved (hs : s.InBounds) (position : Option Nat)
    (h : position = none ∨ s.following? = position ∨ s.preceding? = position) :
    InBounds { s with cursor := position } := by
  refine ⟨hs.aligned, fun i hi => ?_⟩
  rcases h with rfl | h | h
  · exact absurd hi (by simp)
  · exact following?_lt hs (h.trans hi)
  · exact preceding?_lt hs (h.trans hi)

end Snapshot

namespace Forest

variable {f g : Forest}

/-- All snapshots are in bounds. -/
def InBounds (f : Forest) : Prop :=
  ∀ n s, f.snapshot? n = some s → s.InBounds

/-- Looking keeps all snapshots in bounds. -/
theorem inBounds_look (h : Look f g) (hf : f.InBounds) : g.InBounds := by
  intro n s hs
  -- A snapshot is kept, is new, has just been loaded, or has had its cursor moved.
  cases obtains_of_look h n s hs with
  | kept _ hkept => exact hf n s hkept
  | made d location => exact Snapshot.inBounds_ofKeys _
  | loaded => exact Snapshot.inBounds_ofKeys _
  | moved t position ht hposition => exact Snapshot.inBounds_moved (hf n t ht) position hposition

/-- A write changes no snapshot, whatever becomes of the keys in the slot. -/
theorem inBounds_move (f g : Forest) (h : Move f g) (hf : f.InBounds) : g.InBounds := by
  cases h with
  | look _ hlook => exact inBounds_look hlook hf
  | write n v c d =>
      intro m s hs
      rw [snapshot?, view?_write] at hs
      exact hf m s hs
  | settle held => exact hf

theorem inBounds_moves (h : Moves f g) (hf : f.InBounds) : g.InBounds := by
  induction h with
  | refl => exact hf
  | tail _ hmove ih => exact inBounds_move _ _ hmove ih

theorem inBounds_ofDocuments (documents : List Value) : (ofDocuments documents).InBounds := by
  intro n s hs
  exact absurd hs (by simp [snapshot?, view?, ofDocuments])

/-! ## Moving without asking -/

/-- Moves the cursor to a position, if there is one, and fetches the child under the key there.
    Where there is a position and no key, this fails. -/
def moveIndexed? (f : Forest) (n : ViewId) : Option Nat → Option (Option ViewId × Forest)
  | some i =>
    let g := f.setCursor n (some i)
    (g.keys n)[i]?.map fun key => g.child n key
  | none => some (none, f)

/-- The forest after navigating from a view, with moves that can fail. -/
def navigateIndexed? (f : Forest) (n : ViewId) (a : Navigation) : Option Forest :=
  match a with
  | .next => (f.moveIndexed? n ((f.snapshot? n).bind Snapshot.following?)).map Prod.snd
  | .prev => (f.moveIndexed? n ((f.snapshot? n).bind Snapshot.preceding?)).map Prod.snd
  | _ => some (a.perform f n)

/-- The forest after an action, with moves that can fail. -/
def actIndexed? (f : Forest) (a : Action) : Option Forest :=
  match a with
  | .navigate n a => if f.isUsable n then f.navigateIndexed? n a else some f
  | _ => some (f.act a)

/-- The forest after actions, in order, if no move fails. -/
def runIndexed? (f : Forest) : List Action → Option Forest
  | [] => some f
  | a :: actions => (f.actIndexed? a).bind fun g => g.runIndexed? actions

/-- Where a snapshot in bounds leads there is a key. -/
theorem moveIndexed?_eq (hf : f.InBounds) (n : ViewId) (step : Snapshot → Option Nat)
    (hstep : ∀ s : Snapshot, s.InBounds → ∀ i, step s = some i → i < s.keys.length) :
    let position := (f.snapshot? n).bind step
    f.moveIndexed? n position = some (f.moveTo n position) := by
  intro position
  cases hposition : position with
  | none => rfl
  | some i =>
      rcases Option.bind_eq_some_iff.mp hposition with ⟨s, hs, hi⟩
      -- Setting the cursor first does not change the keys.
      have hkeys : (f.setCursor n (some i)).keys n = s.keys := by
        rw [keys_setCursor, keys, hs]
        rfl
      have hkey := List.getElem?_eq_getElem (hstep s (hf n s hs) i hi)
      rw [moveIndexed?, moveTo, childAt, hkeys, hkey]
      rfl

/-- Forward a move never fails. -/
theorem nextIndexed?_eq (hf : f.InBounds) (n : ViewId) :
    f.moveIndexed? n ((f.snapshot? n).bind Snapshot.following?) = some (f.next n) :=
  moveIndexed?_eq hf n _ fun _ hs _ hi => Snapshot.following?_lt hs hi

theorem prevIndexed?_eq (hf : f.InBounds) (n : ViewId) :
    f.moveIndexed? n ((f.snapshot? n).bind Snapshot.preceding?) = some (f.prev n) :=
  moveIndexed?_eq hf n _ fun _ hs _ hi => Snapshot.preceding?_lt hs hi

/-- No action fails. -/
theorem actIndexed?_eq (hf : f.InBounds) (a : Action) : f.actIndexed? a = some (f.act a) := by
  cases a with
  | navigate n a =>
      have hnavigate : f.navigateIndexed? n a = some (a.perform f n) := by
        cases a with
        | next => rw [navigateIndexed?, nextIndexed?_eq hf]; rfl
        | prev => rw [navigateIndexed?, prevIndexed?_eq hf]; rfl
        | _ => rfl
      simp only [actIndexed?, act, hnavigate]
      split <;> rfl
  | _ => rfl

theorem runIndexed?_eq (hf : f.InBounds) (actions : List Action) :
    f.runIndexed? actions = some (f.run actions) := by
  -- Induction on the actions. The next forest is in bounds again, so its move does not fail either.
  induction actions generalizing f with
  | nil => rfl
  | cons a actions ih =>
      rw [runIndexed?, actIndexed?_eq hf, Option.bind_some, ih (inBounds_moves (moves_act f a) hf)]
      rfl

/-- After any run, each container view has a snapshot that knows the position of its last key, if
    it has one, and whose cursor is unset or on one of its keys. So a call forward or back that
    moves the cursor finds a key where it has moved it, and no run, whatever it makes of the slots
    on the way, comes to a move that fails. -/
theorem run_stays_in_bounds (documents : List Value) (actions : List Action) :
    let f := (ofDocuments documents).run actions
    (∀ n, f.isContainer n = true → ∃ s, f.snapshot? n = some s ∧ s.InBounds ∧
      f.moveIndexed? n s.following? = some (f.next n) ∧
      f.moveIndexed? n s.preceding? = some (f.prev n)) ∧
    (ofDocuments documents).runIndexed? actions = some f := by
  intro f
  have hstart := inBounds_ofDocuments documents
  have hf : f.InBounds := inBounds_moves (moves_run _ actions) hstart
  refine ⟨fun n hn => ?_, runIndexed?_eq hstart actions⟩
  rcases exists_snapshot?_of_isContainer f n hn with ⟨s, hs⟩
  have hnext := nextIndexed?_eq hf n
  have hprev := prevIndexed?_eq hf n
  rw [hs, Option.bind_some] at hnext hprev
  exact ⟨s, hs, hf n s hs, hnext, hprev⟩

/-- The cursor is on the last of two keys when another view takes both of them out and puts a
    scalar in place of the container. The view still has its two keys, and the cursor goes back to
    the first of them. -/
theorem in_bounds_over_scalar :
    let actions := [.root 0, .navigate 0 (.child (.name "a")), .navigate 1 .next,
      .navigate 1 .next, .root 0, .navigate 4 (.child (.name "a")), .mutate 5 .pop, .mutate 5 .pop,
      .mutate 4 (.set "a" .null "/")]
    let f := (ofDocuments [.container [(.name "a", .container
      [(.name "x", .int 1), (.name "y", .int 2)])]]).run actions
    f.isContainer 1 = true ∧ f.liveKeys 1 = [] ∧ ∃ s, f.snapshot? 1 = some s ∧ s.InBounds ∧
      s.cursor = some 1 ∧ s.preceding? = some 0 ∧
      f.moveIndexed? 1 s.preceding? = some (f.prev 1) := by
  intro actions f
  have hcontainer : f.isContainer 1 = true := by decide +kernel
  rcases (run_stays_in_bounds _ actions).1 1 hcontainer with ⟨s, hs, hbounds, _, hprev⟩
  have hsnapshot : f.snapshot? 1 = some ⟨[.name "x", .name "y"], some 1, some 1⟩ := by
    decide +kernel
  obtain rfl : s = ⟨[.name "x", .name "y"], some 1, some 1⟩ :=
    Option.some.inj (hs.symm.trans hsnapshot)
  exact ⟨hcontainer, by decide +kernel, _, hs, hbounds, rfl, rfl, hprev⟩

end Forest

end DocTree
