import Mathlib
import DocTree.Merge
import DocTree.Proofs.Merge.Slots

/-!
# Weaving Slots

A merge of entries in one line. Absorbing reads, overwrites and pushes one entry at a
time; `weave` says where every slot ends up. The slots of the left side stay where
they are, each combined with the slot of the same name on the right side if there is
one. Behind them come the slots of the right side that have no partner on the left.

`absorb_number` shows that this is what absorbing does. The invariant is in the
statement: what has been merged so far is always a numbering of slots with distinct
names. One step absorbs one entry, which is a weave with a single slot, and the steps
add up because weaving is associative.

## Main definitions

* `Slots.meet`: a slot after other slots have arrived.
* `Slots.isNew`: a slot without a partner among others.
* `Slots.weave`: two lists of slots in one.

## Theorems

* `find?_weave_of_some`, `find?_weave_of_none`: what a weave holds under a name.
* `nodup_names_weave`: weaving keeps names distinct.
* `unnamed_weave`: no slot without a name is lost.
* `weave_assoc`: weaving is associative if the operation is, where it is used.
* `weave_of_disjoint`: without names in common, weaving is appending.
* `absorb_cons_number`: one step of absorbing is a weave with one slot.
* `absorb_number`: absorbing entries is a weave with their slots.
* `mergeEntries_eq_absorb_append`: a merge is absorbing both sides from the start.
* `mergeEntries_eq_number`: merging entries is weaving their slots.
-/

namespace DocTree

namespace Slots

variable {α : Type}

/-- A slot after others have arrived: the value that comes under its name, if there is one, is
    combined with its own. -/
def meet (f : α → α → α) (u : Slots α) (e : Option String × α) : Option String × α :=
  match e.1.bind (find? u) with
  | some w => (e.1, f e.2 w)
  | none => e

/-- A slot with no name, or with a name that the others do not have. -/
def isNew (s : Slots α) (e : Option String × α) : Bool :=
  (e.1.bind (find? s)).isNone

/-- The slots of the left side, combined with their partners on the right side, and then the slots
    of the right side that have no partner. -/
def weave (f : α → α → α) (s u : Slots α) : Slots α :=
  s.map (meet f u) ++ u.filter (isNew s)

/-! ## Single slots -/

theorem meet_of_none (f : α → α → α) (u : Slots α) (e : Option String × α)
    (h : e.1.bind (find? u) = none) : meet f u e = e := by
  rw [meet, h]

theorem meet_of_some (f : α → α → α) (u : Slots α) (e : Option String × α) (w : α)
    (h : e.1.bind (find? u) = some w) : meet f u e = (e.1, f e.2 w) := by
  rw [meet, h]

theorem fst_meet (f : α → α → α) (u : Slots α) (e : Option String × α) :
    (meet f u e).1 = e.1 := by
  cases h : e.1.bind (find? u) with
  | none => rw [meet_of_none f u e h]
  | some w => rw [meet_of_some f u e w h]

theorem isNew_meet (f : α → α → α) (s u : Slots α) (e : Option String × α) :
    isNew s (meet f u e) = isNew s e := by
  rw [isNew, fst_meet, isNew]

/-! ## Names of a weave -/

theorem find?_map_meet (f : α → α → α) (s u : Slots α) (t : String) :
    find? (s.map (meet f u)) t
      = (find? s t).map fun v => ((find? u t).map (f v)).getD v := by
  induction s with
  | nil => rfl
  | cons e s ih =>
      by_cases he : e.1 = some t
      · have hfind : e.1.bind (find? u) = find? u t := by rw [he, Option.bind_some]
        rw [List.map_cons, find?, fst_meet, if_pos he, find?, if_pos he, Option.map_some]
        cases hu : find? u t with
        | none => rw [meet_of_none f u e (hfind.trans hu)]; rfl
        | some w => rw [meet_of_some f u e w (hfind.trans hu)]; rfl
      · rw [List.map_cons, find?, fst_meet, if_neg he, ih, find?, if_neg he]

theorem find?_filter_isNew (s u : Slots α) (t : String) (h : find? s t = none) :
    find? (u.filter (isNew s)) t = find? u t := by
  induction u with
  | nil => rfl
  | cons e u ih =>
      by_cases he : e.1 = some t
      · have hnew : isNew s e = true := by rw [isNew, he, Option.bind_some, h]; rfl
        rw [List.filter_cons_of_pos hnew, find?, if_pos he, find?, if_pos he]
      · rw [find?, if_neg he, ← ih]
        cases hnew : isNew s e with
        | true => rw [List.filter_cons_of_pos hnew, find?, if_neg he]
        | false => rw [List.filter_cons_of_neg (by simp [hnew])]

theorem find?_weave_of_some (f : α → α → α) (s u : Slots α) (t : String) (v : α)
    (h : find? s t = some v) :
    find? (weave f s u) t = some (((find? u t).map (f v)).getD v) := by
  rw [weave, find?_append, find?_map_meet, h, Option.map_some, Option.some_or]

theorem find?_weave_of_none (f : α → α → α) (s u : Slots α) (t : String) (h : find? s t = none) :
    find? (weave f s u) t = find? u t := by
  rw [weave, find?_append, find?_map_meet, h, Option.map_none, Option.none_or,
    find?_filter_isNew s u t h]

theorem isNew_weave (f : α → α → α) (s u : Slots α) (e : Option String × α) :
    isNew (weave f s u) e = (isNew s e && isNew u e) := by
  rcases e with ⟨name, v⟩
  cases name with
  | none => rfl
  | some t =>
      simp only [isNew, Option.bind_some]
      cases hs : find? s t with
      | none => rw [find?_weave_of_none f s u t hs]; rfl
      | some v => rw [find?_weave_of_some f s u t v hs]; rfl

theorem names_map_meet (f : α → α → α) (s u : Slots α) :
    names (s.map (meet f u)) = names s := by
  rw [names, List.filterMap_map, names]
  exact List.filterMap_congr fun e _ => fst_meet f u e

theorem nodup_names_weave (f : α → α → α) (s u : Slots α) (hs : (names s).Nodup)
    (hu : (names u).Nodup) : (names (weave f s u)).Nodup := by
  rw [weave, names_append, names_map_meet]
  refine List.nodup_append'.mpr ⟨hs, ?_, fun t hts htu => ?_⟩
  · exact hu.sublist (List.filter_sublist.filterMap _)
  · -- What comes from the right side has a name that the left side lacks.
    rcases List.mem_filterMap.mp htu with ⟨e, he, het⟩
    have hnew : isNew s e = true := (List.mem_filter.mp he).2
    rw [isNew, het, Option.bind_some, Option.isNone_iff_eq_none, find?_eq_none_iff] at hnew
    exact hnew hts

theorem unnamed_weave (f : α → α → α) (s u : Slots α) :
    unnamed (weave f s u) = unnamed s + unnamed u := by
  have hleft : unnamed (s.map (meet f u)) = unnamed s := by
    rw [unnamed, List.countP_map, unnamed]
    refine List.countP_congr fun e _ => ?_
    rw [Function.comp_apply, fst_meet]
  have hright : unnamed (u.filter (isNew s)) = unnamed u := by
    rw [unnamed, List.countP_filter, unnamed]
    refine List.countP_congr fun e _ => ?_
    -- What has no name has no partner either.
    cases he : e.1 with
    | none => simp [isNew, he]
    | some t => simp
  rw [weave, unnamed_append, hleft, hright]

/-! ## Associativity -/

/-- A slot that meets two lists of slots in turn meets their weave, if the operation is associative
    on what they have under its name. -/
theorem meet_meet (f : α → α → α) (u w : Slots α) (e : Option String × α)
    (h : ∀ t x y, e.1 = some t → find? u t = some x → find? w t = some y →
      f (f e.2 x) y = f e.2 (f x y)) :
    meet f w (meet f u e) = meet f (weave f u w) e := by
  rcases e with ⟨name, v⟩
  cases name with
  | none => rfl
  | some t =>
      simp only [meet, Option.bind_some]
      cases hu : find? u t with
      | none =>
          rw [find?_weave_of_none f u w t hu]
          rfl
      | some x =>
          rw [find?_weave_of_some f u w t x hu]
          cases hw : find? w t with
          | none => simp [hw]
          | some y =>
              simp only [Option.bind_some, hw, Option.map_some, Option.getD_some]
              rw [h t x y rfl hu hw]

/-- Weaving is associative if the operation is, on values that share a name. -/
theorem weave_assoc (f : α → α → α) (s u w : Slots α)
    (h : ∀ t v x y, (some t, v) ∈ s → find? u t = some x → find? w t = some y →
      f (f v x) y = f v (f x y)) :
    weave f (weave f s u) w = weave f s (weave f u w) := by
  have hleft : (s.map (meet f u)).map (meet f w) = s.map (meet f (weave f u w)) := by
    rw [List.map_map]
    refine List.map_congr_left fun e he => meet_meet f u w e fun t x y ht => ?_
    exact h t e.2 x y (by rwa [← ht])
  -- The slots of the second list may combine before or after those with a partner are dropped.
  have hmiddle : (u.filter (isNew s)).map (meet f w) = (u.map (meet f w)).filter (isNew s) := by
    rw [List.filter_map]
    refine congrArg _ (List.filter_congr fun e _ => ?_)
    rw [Function.comp_apply, isNew_meet]
  have hright : w.filter (isNew (weave f s u)) = (w.filter (isNew u)).filter (isNew s) := by
    rw [List.filter_filter]
    exact List.filter_congr fun e _ => isNew_weave f s u e
  rw [weave, hright, weave, List.map_append, hleft, hmiddle, weave, weave, List.filter_append,
    List.append_assoc]

/-! ## Without names in common -/

theorem bind_find?_of_disjoint (s u : Slots α) (h : (names s).Disjoint (names u))
    (e : Option String × α) (he : e ∈ s) : e.1.bind (find? u) = none := by
  rcases e with ⟨name, v⟩
  cases name with
  | none => rfl
  | some t => exact (find?_eq_none_iff u t).mpr (h (mem_names_of_mem s t v he))

/-- Without a name in common, the slots of the right side follow those of the left side. -/
theorem weave_of_disjoint (f : α → α → α) (s u : Slots α) (h : (names s).Disjoint (names u)) :
    weave f s u = s ++ u := by
  have hleft : s.map (meet f u) = s := by
    refine (List.map_congr_left fun e he => ?_).trans (List.map_id s)
    exact meet_of_none f u e (bind_find?_of_disjoint s u h e he)
  have hright : u.filter (isNew s) = u := by
    refine List.filter_eq_self.mpr fun e he => ?_
    rw [isNew, bind_find?_of_disjoint u s h.symm e he]
    rfl
  rw [weave, hleft, hright]

/-- A slot with a name that is taken changes the slot that has it. -/
theorem weave_singleton_of_some (f : α → α → α) (s : Slots α) (t : String) (v old : α)
    (h : find? s t = some old) : weave f s [(some t, v)] = s.map (modify t fun x => f x v) := by
  have hmeet : meet f [(some t, v)] = modify t fun x => f x v := by
    ext1 e
    rcases e with ⟨name, x⟩
    cases name with
    | none => rfl
    | some r =>
        by_cases hr : r = t
        · simp [meet, modify, find?, hr]
        · have hr' : t ≠ r := fun h => hr h.symm
          simp [meet, modify, find?, hr, hr']
  rw [weave, hmeet, List.filter_cons_of_neg (by rw [isNew, Option.bind_some, h]; simp),
    List.filter_nil, List.append_nil]

end Slots

namespace Value

open Slots

theorem combine_eq_merge (old v : Value) : combine old v = merge old v := by
  cases v with
  | container c => rfl
  | _ => rfl

/-- One step of absorbing weaves in one slot. An index must be left for a value that comes
    without a name. -/
theorem absorb_cons_number (s : Slots Value) (key : Key) (v : Value) (c : Entries Value)
    (hs : (names s).Nodup) (hroom : unnamed s + unnamed [(key.name?, v)] ≤ 2 ^ 63) :
    absorb (number 0 s) ((key, v) :: c)
      = absorb (number 0 (weave merge s [(key.name?, v)])) c := by
  cases key with
  | index i =>
      -- A value without a name goes to the end.
      have hlt : unnamed s < 2 ^ 63 := by simpa [unnamed, Key.name?] using hroom
      rw [absorb, push_number s v hlt, Key.name?, weave_of_disjoint merge s _]
      exact List.disjoint_nil_right _
  | name t =>
      rw [absorb, get?_number, Key.name?]
      cases hold : find? s t with
      | none =>
          -- So does a new name.
          have hfresh : (names s).Disjoint (names [(some t, v)]) :=
            List.disjoint_singleton.mpr ((find?_eq_none_iff s t).mp hold)
          rw [weave_of_disjoint merge s _ hfresh, number_append]
          rfl
      | some old =>
          -- A name that is taken is combined in place.
          dsimp only
          rw [combine_eq_merge, weave_singleton_of_some merge s t v old hold,
            overwrite_number 0 s t (fun x => merge x v) old hs hold]

/-- Absorbing entries weaves in their slots, by induction on the entries: what has been merged so
    far stays a numbering of slots with distinct names. -/
theorem absorb_number (s : Slots Value) (c : Entries Value) (hs : (names s).Nodup)
    (hc : (names c.slots).Nodup) (hroom : unnamed s + unnamed c.slots ≤ 2 ^ 63) :
    absorb (number 0 s) c = number 0 (weave merge s c.slots) := by
  induction c generalizing s with
  | nil =>
      rw [absorb, weave_of_disjoint merge s _ (List.disjoint_nil_right _)]
      exact congrArg (number 0) (List.append_nil s).symm
  | cons e c ih =>
      rcases e with ⟨key, v⟩
      have hsplit : Entries.slots ((key, v) :: c) = [(key.name?, v)] ++ Entries.slots c := rfl
      rw [hsplit] at hc hroom ⊢
      rw [names_append, List.nodup_append'] at hc
      rcases hc with ⟨hone, hc, hdisjoint⟩
      rw [unnamed_append] at hroom
      -- The entry shares no name with the entries after it, so no name meets three values.
      have hweave : weave merge (weave merge s [(key.name?, v)]) (Entries.slots c)
          = weave merge s ([(key.name?, v)] ++ Entries.slots c) := by
        rw [weave_assoc, weave_of_disjoint merge _ _ hdisjoint]
        intro t x y z _ hy hz
        exact absurd (mem_names_of_find? _ t z hz) (hdisjoint (mem_names_of_find? _ t y hy))
      rw [absorb_cons_number s key v c hs (by omega), ih _ (nodup_names_weave merge s _ hs hone) hc,
        hweave]
      rw [unnamed_weave]
      omega

/-- Absorbing entries into an empty container renumbers them. -/
theorem absorb_nil (c : Entries Value) (hc : (names c.slots).Nodup)
    (hroom : unnamed c.slots ≤ 2 ^ 63) : absorb [] c = c.renumber := by
  have hweave : weave merge [] c.slots = c.slots :=
    weave_of_disjoint merge [] _ (List.disjoint_nil_left _)
  have habsorb := absorb_number [] c List.nodup_nil hc (by simpa [unnamed] using hroom)
  rw [hweave, number_slots] at habsorb
  exact habsorb

theorem absorb_append (merged c d : Entries Value) :
    absorb merged (c ++ d) = absorb (absorb merged c) d := by
  induction c generalizing merged with
  | nil => rfl
  | cons e c ih =>
      rcases e with ⟨key, v⟩
      cases key with
      | index i => rw [List.cons_append, absorb, absorb, ih]
      | name t =>
          rw [List.cons_append, absorb, absorb]
          cases Entries.get? merged (.name t) with
          | none => exact ih _
          | some old => exact ih _

/-- A merge may as well start from an empty container and absorb the entries of the left side
    first: renumbering them at once comes to the same. -/
theorem mergeEntries_eq_absorb_append (left right : Entries Value)
    (hleft : (names left.slots).Nodup) (hroom : unnamed left.slots ≤ 2 ^ 63) :
    mergeEntries left right = absorb [] (left ++ right) := by
  rw [absorb_append, absorb_nil left hleft hroom, mergeEntries]

/-- Merging entries weaves their slots and numbers the result. -/
theorem mergeEntries_eq_number (left right : Entries Value) (hleft : (names left.slots).Nodup)
    (hright : (names right.slots).Nodup)
    (hroom : unnamed left.slots + unnamed right.slots ≤ 2 ^ 63) :
    mergeEntries left right = number 0 (weave merge left.slots right.slots) := by
  rw [mergeEntries, Entries.renumber, ← number_slots]
  exact absorb_number left.slots right hleft hright hroom

end Value

end DocTree
