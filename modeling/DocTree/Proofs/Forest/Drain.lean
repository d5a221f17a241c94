import Mathlib
import DocTree.Proofs.Forest.CursorWalk

/-!
# Walking Until Nothing Is Found

A cursor is made for a loop: it is called until it finds nothing, and each child on the way
is looked at. The loop has no bound of its own, but it does not need one either, since there
are only so many keys ahead of a cursor and each call passes one. So the bound that a
recursion has to have never ends the loop.

What does end it may be a key that is gone. A call that comes to such a key finds nothing,
just as a call at the end does, and the keys behind it are not visited any more. A loop sees
all of a container exactly if its snapshot is up to date.

## Main definitions

* `Forest.Exhausts`: the loop, without a bound.
* `Forest.Ahead`: the keys that the calls will come to.

## Theorems

* `Exhausts.calls`: a loop is a number of calls, one more than it has found children.
* `Exhausts.glances`: it changes no document.
* `ahead_next`, `ahead_prev`: what is ahead of a cursor, in either direction.
* `repeatStep_of_ahead`: a loop with a bound above the number of keys ahead.
* `drain_exact`, `undrain_exact`: what loops find in each direction.
* `drain_upToDate`: forth and back through a container whose keys are all live.
-/

namespace DocTree

namespace Forest

variable {f g h : Forest} {n : ViewId}

/-! ## Loops -/

section

variable {α : Type} {step : Forest → Option ViewId × Forest} {look : Forest → ViewId → α}

/-- Steps are taken for as long as they find something, and each view that is found is looked at.
    These are the looks, and `g` is the forest after the step that has found nothing. -/
inductive Exhausts (step : Forest → Option ViewId × Forest) (look : Forest → ViewId → α) :
    Forest → List α → Forest → Prop
  | stop (f g : Forest) : step f = (none, g) → Exhausts step look f [] g
  | go (f g h : Forest) (c : ViewId) (rest : List α) :
      step f = (some c, g) → Exhausts step look g rest h → Exhausts step look f (look g c :: rest) h

/-- The steps come to these keys of a view, one after the other, and then find nothing. -/
inductive Ahead (step : Forest → Option ViewId × Forest) (n : ViewId) : Forest → List Key → Prop
  | nil (f : Forest) : (step f).1 = none → Ahead step n f []
  | cons (f : Forest) (i : Nat) (key : Key) (keys : List Key) :
      f.Visits n i key (step f) → Ahead step n (step f).2 keys → Ahead step n f (key :: keys)

/-- Calls may go on where others have ended. -/
theorem Calls.trans {way : Navigation} {k j : Nat} (hfg : Calls n way k f g)
    (hgh : Calls n way j g h) : Calls n way (k + j) f h := by
  induction hgh with
  | start g => exact hfg
  | call j g h _ ih => exact .call _ f h (ih hfg)
  | pause j g h a _ halone ih => exact .pause _ f h a (ih hfg) halone

/-- Each call of a loop finds a child, but for the last. -/
theorem Exhausts.calls {way : Navigation} (hway : ∀ g, way.perform g n = (step g).2)
    {looks : List α} (hloop : Exhausts step look f looks g) :
    Calls n way (looks.length + 1) f g := by
  have hcall : ∀ f, Calls n way 1 f (step f).2 := fun f => hway f ▸ .call 0 f f (.start f)
  induction hloop with
  | stop f g hstep =>
      have hone := hcall f
      rwa [hstep] at hone
  | go f g h c rest hstep _ ih =>
      have hone := hcall f
      rw [hstep] at hone
      rw [List.length_cons, Nat.add_comm]
      exact hone.trans ih

/-- A loop of glances is made of glances. -/
theorem Exhausts.glances (hstep : ∀ g, Glances g (step g).2) {looks : List α}
    (hloop : Exhausts step look f looks g) : Glances f g := by
  induction hloop with
  | stop f g h => simpa [h] using hstep f
  | go f g h c rest hfound _ ih =>
      have hfirst := hstep f
      rw [hfound] at hfirst
      exact hfirst.trans ih

end

/-! ## What is ahead of a cursor -/

variable {ks : List Key} {c : Nat}

theorem glances_next (f : Forest) (n : ViewId) : Glances f (f.next n).2 :=
  glances_navigation .next f n (by simp) (by simp)

theorem glances_prev (f : Forest) (n : ViewId) : Glances f (f.prev n).2 :=
  glances_navigation .prev f n (by simp) (by simp)

/-- Ahead of a cursor are the keys behind the one it is on. -/
theorem ahead_next (hf : f.Orderly) (hstands : f.StandsOn n ks c) (hc : c ≤ ks.length) :
    Ahead (·.next n) n f (ks.drop c) := by
  induction hleft : ks.length - c generalizing f c with
  | zero =>
      rw [List.drop_eq_nil_of_le (by omega)]
      exact .nil f (congrArg Prod.fst ((standsOn_next hf hstands).2.1 (by omega)))
  | succ left ih =>
      have hlt : c < ks.length := by omega
      rcases standsOn_next hf hstands with ⟨hvisits, _, hafter⟩
      have hstands' := hafter hc
      rw [Nat.min_eq_left hlt] at hstands'
      have hf' := hf.glances (glances_next f n)
      rw [List.drop_eq_getElem_cons hlt]
      exact .cons f c _ _ (hvisits _ (List.getElem?_eq_getElem hlt))
        (ih hf' hstands' hlt (by omega))

/-- On the way back they are those before the one it is on, the nearest first. -/
theorem ahead_prev (hf : f.Orderly) (hstands : f.StandsOn n ks c) (hc : c ≤ ks.length) :
    Ahead (·.prev n) n f (ks.take (c - 1)).reverse := by
  induction c using Nat.twoStepInduction generalizing f with
  | zero | one =>
      exact .nil f (congrArg Prod.fst ((standsOn_prev hf hstands hc).2.1 (by omega)))
  | more c _ ih =>
      have hlt : c < ks.length := by omega
      rcases standsOn_prev hf hstands hc with ⟨hvisits, _, hstands'⟩
      rw [show max (c + 2 - 1) (min 1 (c + 2)) = c + 1 by omega] at hstands'
      have hf' := hf.glances (glances_prev f n)
      rw [show c + 2 - 1 = c + 1 by omega, List.take_succ_eq_append_getElem hlt,
        List.reverse_append, List.reverse_singleton, List.singleton_append]
      exact .cons f c _ _ (hvisits c _ rfl (List.getElem?_eq_getElem hlt))
        (ih hf' hstands' (by omega))

/-! ## What a loop finds -/

/-- A visit that finds a view finds the child under the key, which reads the slot under it. -/
theorem entry_of_visits (hf : f.Orderly) {i : Nat} {key : Key} {r : Option ViewId × Forest}
    (h : f.Visits n i key r) (m : ViewId) (hm : r.1 = some m) :
    r.2.key m = some key ∧ (f.value n).child? key = some (r.2.value m) := by
  have hlinked : (f.setCursor n (some i)).Linked := by
    unfold setCursor
    split
    · exact linked_withSnapshot f hf.sound.linked n _
    · exact hf.sound.linked
  rcases shows_of_child _ hlinked n key m r.2 (by rw [← h.moved, ← hm]) with
    ⟨v, u, _, _, hu, _, ⟨w, hw, _, _, hkey, _⟩, hshows⟩
  rw [slotBelow?_eq_child?, value_setCursor] at hu
  exact ⟨(key_of_view? r.2 m w hw).trans hkey, by rw [hu, hshows.value]⟩

/-- What is no view reads null, which has no keys. -/
theorem exists_view?_of_mem_liveKeys {key : Key} (h : key ∈ f.liveKeys n) :
    ∃ v, f.view? n = some v := by
  cases hv : f.view? n with
  | none =>
      rw [liveKeys, value, slot?, hv] at h
      exact absurd h List.not_mem_nil
  | some v => exact ⟨v, rfl⟩

/-- With a bound above the number of keys ahead, the loop ends by itself. It has then looked at the
    children under the keys ahead, up to the first that is gone. -/
theorem repeatStep_of_ahead {step : Forest → Option ViewId × Forest}
    (hstep : ∀ g, Glances g (step g).2) (hf : f.Orderly) {keys : List Key}
    (h : Ahead step n f keys) {fuel : Nat} (hfuel : keys.length < fuel) :
    let r := repeatStep step entry fuel f
    Exhausts step entry f r.1 r.2 ∧
      r.1 = (keys.takeWhile (· ∈ f.liveKeys n)).map fun key =>
        (some key, ((f.value n).child? key).getD .null) := by
  -- Along the keys ahead. A step that finds something leaves one key fewer and one call fewer.
  induction h generalizing fuel with
  | nil f hnone =>
      rcases Nat.exists_eq_succ_of_ne_zero (Nat.ne_of_gt hfuel) with ⟨fuel, rfl⟩
      rcases hr : step f with ⟨_ | m, g⟩
      · simp only [repeatStep, hr]
        exact ⟨.stop f g hr, rfl⟩
      · exact absurd hnone (by simp [hr])
  | cons f i key keys hvisit _ ih =>
      rcases Nat.exists_eq_succ_of_ne_zero (Nat.ne_of_gt (Nat.zero_lt_of_lt hfuel)) with
        ⟨fuel, rfl⟩
      have hlive := hvisit.gone
      have hentry := entry_of_visits hf hvisit
      have hglances := hstep f
      rcases hr : step f with ⟨_ | m, g⟩
      · rw [hr] at hlive
        rw [List.takeWhile_cons_of_neg (by simpa using hlive)]
        simp only [repeatStep, hr]
        exact ⟨.stop f g hr, rfl⟩
      · rw [hr] at hlive hentry hglances ih
        have hmem : key ∈ f.liveKeys n := by simpa using hlive
        rcases hentry m rfl with ⟨hkey, hchild⟩
        rcases ih (hf.glances hglances) (Nat.lt_of_succ_lt_succ hfuel) with ⟨hloop, hfound⟩
        -- The view reads the same as before, so the same keys are live at the next step.
        rcases exists_view?_of_mem_liveKeys hmem with ⟨v, hv⟩
        rw [liveKeys, value_looks f g (looks_of_glances f g hglances) hf.sound n v hv,
          ← liveKeys] at hfound
        rw [List.takeWhile_cons_of_pos (by simpa using hmem), List.map_cons, hchild]
        simp only [repeatStep, hr]
        refine ⟨.go f g _ m _ hr hloop, ?_⟩
        rw [hfound, entry, hkey, Option.getD_some]

/-- A loop forward finds the keys behind the cursor, up to the first that is gone. -/
theorem drain_of_standsOn (hf : f.Orderly) (hstands : f.StandsOn n ks c) (hc : c ≤ ks.length) :
    Exhausts (·.next n) entry f (f.drain n).1 (f.drain n).2 ∧
      (f.drain n).1 = ((ks.drop c).takeWhile (· ∈ f.liveKeys n)).map fun key =>
        (some key, ((f.value n).child? key).getD .null) := by
  refine repeatStep_of_ahead (glances_next · n) hf (ahead_next hf hstands hc) ?_
  rw [hstands.keys, List.length_drop]
  omega

/-- A loop backward finds the keys before the cursor, the nearest first and up to the first that is
    gone. -/
theorem undrain_of_standsOn (hf : f.Orderly) (hstands : f.StandsOn n ks c) (hc : c ≤ ks.length) :
    Exhausts (·.prev n) entry f (f.undrain n).1 (f.undrain n).2 ∧
      (f.undrain n).1 = ((ks.take (c - 1)).reverse.takeWhile (· ∈ f.liveKeys n)).map fun key =>
        (some key, ((f.value n).child? key).getD .null) := by
  refine repeatStep_of_ahead (glances_prev · n) hf (ahead_prev hf hstands hc) ?_
  rw [hstands.keys, List.length_reverse, List.length_take]
  omega

/-- From the unset position the loop forward comes to an end by itself, with the entries of the
    value under the keys of the snapshot, up to the first key that is gone. The cursor is then on
    that key, or on the last one if there is none. -/
theorem drain_exact {f : Forest} (hf : f.Reachable) (n : ViewId) (hn : f.isContainer n = true) :
    let r := (f.rewind n).drain n
    Exhausts (·.next n) entry (f.rewind n) r.1 r.2 ∧
      (r.1 = ((f.keys n).takeWhile (· ∈ f.liveKeys n)).map fun key =>
        (some key, ((f.value n).child? key).getD .null)) ∧
      r.2.StandsOn n (f.keys n) (min (r.1.length + 1) (f.keys n).length) := by
  have hrewound : (f.rewind n).Orderly := hf.orderly.glances (glances_rewind f n)
  have hstart := standsOn_rewind hn
  rcases drain_of_standsOn hrewound hstart (Nat.zero_le _) with ⟨hloop, hfound⟩
  have hvalue : (f.rewind n).value n = f.value n := value_setCursor f n n none
  rw [List.drop_zero, liveKeys, hvalue] at hfound
  exact ⟨hloop, hfound, standsOn_nexts (hloop.calls fun _ => rfl) hrewound hstart⟩

/-- Where the snapshot is up to date, a loop forward finds every entry in order, and a loop backward
    from there all but the last, in the opposite order. -/
theorem drain_upToDate {f : Forest} (hf : f.Reachable) (n : ViewId) (hn : f.isContainer n = true)
    (d : Entries Value) (hd : d.Distinct) (hvalue : f.value n = .container d)
    (hlive : f.keys n = f.liveKeys n) :
    let r := (f.rewind n).drain n
    r.1 = d.map (fun e => (some e.1, e.2)) ∧
      (r.2.undrain n).1 = d.dropLast.reverse.map fun e => (some e.1, e.2) := by
  intro r
  have hkeys : f.keys n = Entries.keys d := by
    rw [hlive, liveKeys, hvalue]
    rfl
  -- What a loop finds under keys of some of the entries are these entries.
  have hentries : ∀ es : Entries Value, (∀ e ∈ es, e ∈ d) →
      ((Entries.keys es).takeWhile (· ∈ f.liveKeys n)).map (fun key =>
        (some key, ((f.value n).child? key).getD .null)) = es.map fun e => (some e.1, e.2) := by
    intro es hes
    have hall : ∀ key ∈ Entries.keys es, decide (key ∈ f.liveKeys n) = true := by
      intro key hkey
      rw [decide_eq_true_iff, ← hlive, hkeys]
      rcases List.mem_map.mp hkey with ⟨e, he, rfl⟩
      exact List.mem_map_of_mem (hes e he)
    rw [List.takeWhile_eq_self_iff.mpr hall, Entries.keys, List.map_map]
    refine List.map_congr_left fun e he => ?_
    rw [Function.comp_apply, hvalue, Value.child?_container, Entries.get?_of_mem d hd e (hes e he),
      Option.getD_some]
  rcases drain_exact hf n hn with ⟨hloop, hfound, hstands⟩
  have hforth : r.1 = d.map fun e => (some e.1, e.2) := by
    rw [hfound, hkeys]
    exact hentries d fun _ he => he
  refine ⟨hforth, ?_⟩
  -- Neither rewinding nor the loop changes what the view reads.
  have hglances := (glances_rewind f n).trans (hloop.glances (glances_next · n))
  rcases exists_view?_of_isContainer f n hn with ⟨v, hv⟩
  have hsame : r.2.value n = f.value n :=
    value_looks f r.2 (looks_of_glances f r.2 hglances) hf.sound n v hv
  rw [hforth, hkeys, Entries.keys, List.length_map, List.length_map,
    Nat.min_eq_right (Nat.le_succ _)] at hstands
  rcases undrain_of_standsOn (hf.orderly.glances hglances) hstands (by simp) with ⟨_, hback⟩
  rw [hback, liveKeys, hsame, ← liveKeys, ← List.map_take, ← List.map_reverse,
    ← List.dropLast_eq_take]
  exact hentries d.dropLast.reverse fun e he =>
    List.dropLast_subset d (List.mem_reverse.mp he)

end Forest

end DocTree
