import Mathlib
import DocTree.Proofs.Candidates

/-!
# Where Segments Lead

A walk asks of every place but the last whether it is a container. It need not ask: a
leaf shows no keys, so the next segment would lead nowhere from it anyway. Without the
question a walk is one step after the other, and a walk along segments and more segments
is a walk along the first and then along the others.

This is what a path with a single wildcard comes to. The segments before the wildcard
lead to a place, the keys there are the choices, and behind each of them the segments
after the wildcard lead on. All other positions leave no choice, so the candidates stand
in the order of the keys; and if no key has a text that means something else in a path,
each candidate is taken apart as it was put together.

## Main definitions

* `Key.Unambiguous`: a key whose text means nothing else in a path.
* `Vantage.Coherent`: a leaf shows no keys.
* `Vantage.reach?`: the place that segments lead to, none of them to where they start.
* `Vantage.branch?`: the place that a key and then segments lead to.

## Theorems

* `reach?_append`: segments and more segments.
* `walk?_eq_reach?`: a walk is one step after the other.
* `reach?_of_plain`: segments that are plain keys lead to the location of these keys.
* `choices_of_single`, `candidates_of_single`: the choices of a path with one wildcard.
* `survivors_of_single_of_leaf`, `survivors_of_single`: which of them survive, and in which
  order.
-/

namespace DocTree

theorem Forest.combinations_of_single {α : Type} (before after : List α) (options : List α) :
    combinations (before.map (fun a => [a]) ++ options :: after.map fun a => [a])
      = options.map fun a => before ++ a :: after := by
  have hafter : combinations (after.map fun a => [a]) = [after] := by
    induction after with
    | nil => rfl
    | cons a after ih => simp [combinations, ih]
  induction before with
  | nil =>
      rw [List.map_nil, List.nil_append, combinations, hafter]
      exact List.map_eq_flatMap.symm
  | cons b before ih => simp [combinations, ih]

/-- The text of the key means nothing else in a path that is split on this character. -/
structure Key.Unambiguous (key : Key) (separator : Char) : Prop where
  canonical : key.Canonical
  whole : separator ∉ key.text.toList
  /-- It is no selector clause. -/
  plain : (Segment.parse key.text).clause = none

instance (key : Key) (c : Char) : Decidable (key.Unambiguous c) :=
  decidable_of_iff
    (key.Canonical ∧ c ∉ key.text.toList ∧ (Segment.parse key.text).clause = none)
    ⟨fun h => ⟨h.1, h.2.1, h.2.2⟩, fun h => ⟨h.canonical, h.whole, h.plain⟩⟩

/-- A path with such a key in place of the wildcard is taken apart as it was put together. -/
theorem Key.Unambiguous.segments_join {key : Key} {c : Char} (h : key.Unambiguous c)
    (text separator : String) (hseparator : separator.toList = [c]) (before after : List String)
    (hsegments : (Path.parse text separator).segments = before ++ Path.wildcard :: after) :
    (Path.parse (Path.join (before ++ key.text :: after) separator) separator).segments
      = before ++ key.text :: after := by
  refine Path.segments_join_of_not_mem hseparator _ (by simp) fun s hs => ?_
  have hmem : s = key.text ∨ s ∈ (Path.parse text separator).segments := by
    rw [hsegments]
    simp only [List.mem_append, List.mem_cons] at hs ⊢
    tauto
  rcases hmem with rfl | hmem
  · exact h.whole
  · exact Path.not_mem_of_mem_segments hseparator text s hmem

namespace Vantage

variable (t : Vantage) (place : List Key)

/-- A leaf shows no keys. -/
def Coherent : Prop :=
  t.isContainer = false → t.keys = []

/-- The place that segments lead to, one after the other. None of them lead to the place where
    they start. -/
def reach? (place : List Key) : List String → Option (List Key)
  | [] => some place
  | raw :: rest => (t.get? place raw).bind fun c => reach? c rest

/-- The place that a key leads to, and then segments from there. -/
def branch? (key : Key) (segments : List String) : Option (List Key) :=
  (t.child? place key).bind fun c => t.reach? c segments

/-! ## One step after the other -/

theorem reach?_append (segments more : List String) :
    t.reach? place (segments ++ more)
      = (t.reach? place segments).bind fun c => t.reach? c more := by
  -- Induction on the segments before, with the place that they have led to.
  induction segments generalizing place with
  | nil => rfl
  | cons raw rest ih =>
      rw [List.cons_append, reach?, reach?, Option.bind_assoc]
      exact congrArg _ (funext fun c => ih c)

theorem coherent_ofValue (v : Value) : (ofValue v).Coherent :=
  Value.keys_of_isContainer_eq_false v

theorem Coherent.below {t : Vantage} (h : t.Coherent) (place : List Key) :
    (t.below place).Coherent := by
  unfold Vantage.below
  split
  · exact h
  · exact coherent_ofValue _

/-- No segment leads on from a leaf. -/
theorem get?_of_leaf {t : Vantage} (h : t.Coherent) (place : List Key)
    (hleaf : (t.below place).isContainer = false) (raw : String) : t.get? place raw = none := by
  have hkeys := h.below place hleaf
  simp [get?, child?, hkeys]

/-- A walk is one step after the other. -/
theorem walk?_eq_reach? {t : Vantage} (h : t.Coherent) (place : List Key) (raw : String)
    (rest : List String) : t.walk? place (raw :: rest) = t.reach? place (raw :: rest) := by
  -- Induction on the segments that follow, each from the place of the one before.
  induction rest generalizing place raw with
  | nil => simp [walk?, reach?]
  | cons next rest ih =>
      rw [walk?, reach?]
      · refine congrArg _ (funext fun c => ?_)
        by_cases hc : (t.below c).isContainer = true
        · rw [if_pos hc, ih c next]
        · -- The walk stops at a leaf, and the next step would.
          rw [if_neg hc, reach?, get?_of_leaf h c (by simpa using hc), Option.bind_none]
      · exact List.cons_ne_nil _ _

/-! ## Plain keys -/

theorem get?_of_plain (raw : String) (h : (Segment.parse raw).clause = none) :
    t.get? place raw = t.child? place (Key.parse raw) := by
  rw [get?, Segment.parse_of_clause_eq_none raw h]
  exact Option.bind_fun_some _

/-- Where everything is seen as it is, so is every slot. -/
theorem below_ofValue (v : Value) (place : List Key) (u : Value) (h : v.lookup place = some u) :
    (ofValue v).below place = ofValue u := by
  unfold Vantage.below
  split
  · rename_i hnil
    rw [hnil, Value.lookup, Option.some.injEq] at h
    rw [h]
  · exact congrArg (fun w => ofValue (w.getD .null)) h

/-- Where everything is seen as it is, a child is there if its slot is. -/
theorem child?_ofValue (v : Value) (key : Key) :
    (ofValue v).child? place key
      = if (v.lookup (place ++ [key])).isSome then some (place ++ [key]) else none := by
  -- A slot below is that of an entry, and its key is seen.
  have hseen : (v.lookup (place ++ [key])).isSome → key ∈ ((ofValue v).below place).keys := by
    intro hslot
    rw [Value.lookup_append] at hslot
    rcases hplace : v.lookup place with _ | u
    · rw [hplace] at hslot
      exact absurd hslot (by simp)
    · rw [hplace, Option.bind_some] at hslot
      rcases Option.isSome_iff_exists.mp hslot with ⟨w, hw⟩
      simp only [Value.lookup, Option.bind_eq_some_iff] at hw
      rcases hw with ⟨x, hx, _⟩
      rcases Value.exists_container_of_child? u x key hx with ⟨c, rfl, hget⟩
      rw [below_ofValue v place _ hplace]
      exact (Entries.isSome_get?_iff c key).mp (by rw [hget]; rfl)
  rw [child?]
  by_cases hslot : (v.lookup (place ++ [key])).isSome = true
  · rw [if_pos ⟨hseen hslot, hslot⟩, if_pos hslot]
  · rw [if_neg fun h => hslot h.2, if_neg hslot]

/-- Where everything is seen as it is, plain keys lead to their location, if there is a slot. -/
theorem reach?_of_plain (v : Value) (segments : List String)
    (hplain : ∀ s ∈ segments, (Segment.parse s).clause = none)
    (hplace : (v.lookup place).isSome) :
    (ofValue v).reach? place segments
      = if (v.lookup (place ++ segments.map Key.parse)).isSome then
          some (place ++ segments.map Key.parse)
        else none := by
  -- Induction on the segments. As long as there is a slot, the place is the location so far.
  induction segments generalizing place with
  | nil => rw [reach?, List.map_nil, List.append_nil, if_pos hplace]
  | cons raw rest ih =>
      rw [List.forall_mem_cons] at hplain
      rw [reach?, get?_of_plain _ _ raw hplain.1, child?_ofValue, List.map_cons,
        List.append_cons place (Key.parse raw) (rest.map Key.parse)]
      by_cases hchild : (v.lookup (place ++ [Key.parse raw])).isSome = true
      · rw [if_pos hchild, Option.bind_some, ih _ hplain.2 hchild]
      · -- Without the first slot there is none further down.
        have hnone : v.lookup (place ++ [Key.parse raw]) = none := by simpa using hchild
        rw [if_neg hchild, Option.bind_none, Value.lookup_append, hnone]
        rfl

/-! ## One wildcard -/

/-- Segments before a wildcard leave no choice and lead the frontier on. -/
theorem choices_append (frontier : Option (Vantage × List Key)) (segments more : List String)
    (h : Path.wildcard ∉ segments) :
    choices frontier (segments ++ more)
      = segments.map (fun s => [s])
        ++ choices (frontier.bind fun e => (e.1.reach? e.2 segments).map fun c => (e.1, c))
          more := by
  -- Induction on the segments, of which none is a wildcard, so each leaves one choice.
  induction segments generalizing frontier with
  | nil =>
      have hfrontier : (frontier.bind fun e : Vantage × List Key =>
          (e.1.reach? e.2 []).map fun c => (e.1, c)) = frontier := by
        cases frontier <;> rfl
      rw [hfrontier]
      rfl
  | cons raw rest ih =>
      rw [List.mem_cons, not_or] at h
      have hfrontier : ((frontier.bind fun e => (e.1.get? e.2 raw).map fun c => (e.1, c)).bind
            fun e => (e.1.reach? e.2 rest).map fun c => (e.1, c))
          = frontier.bind fun e => (e.1.reach? e.2 (raw :: rest)).map fun c => (e.1, c) := by
        rw [Option.bind_assoc]
        refine congrArg _ (funext fun e => ?_)
        rw [reach?]
        cases e.1.get? e.2 raw <;> rfl
      rw [List.cons_append, choices, if_neg (Ne.symm h.1), ih _ h.2, hfrontier]
      rfl

/-- Without a wildcard there is no choice. -/
theorem choices_of_plain (frontier : Option (Vantage × List Key)) (segments : List String)
    (h : Path.wildcard ∉ segments) : choices frontier segments = segments.map fun s => [s] := by
  have happend := choices_append frontier segments [] h
  rw [List.append_nil] at happend
  rw [happend, choices, List.append_nil]

/-- A single wildcard stands for the keys of the place that the segments before it lead to. -/
theorem choices_of_single {t : Vantage} (h : t.Coherent) (before after : List String)
    (hbefore : Path.wildcard ∉ before) (hafter : Path.wildcard ∉ after) :
    choices (some (t, [])) (before ++ Path.wildcard :: after)
      = before.map (fun s => [s])
        ++ ((t.reach? [] before).elim [] fun q => (t.below q).keys.map Key.text)
          :: after.map fun s => [s] := by
  rw [choices_append _ before _ hbefore, Option.bind_some, choices, if_pos rfl]
  refine congrArg _ ?_
  cases hreach : t.reach? [] before with
  | none => exact congrArg _ (choices_of_plain _ after hafter)
  | some q =>
      rw [Option.map_some, Option.elim_some]
      by_cases hq : (t.below q).isContainer = true
      · have hfront : (some (t, q)).filter
            (fun e : Vantage × List Key => (e.1.below e.2).isContainer) = some (t, q) :=
          Option.filter_some_pos hq
        rw [hfront]
        exact congrArg _ (choices_of_plain _ after hafter)
      · -- A leaf is no frontier for a wildcard, and has no keys either.
        have hfront : (some (t, q)).filter
            (fun e : Vantage × List Key => (e.1.below e.2).isContainer) = none :=
          Option.filter_some_neg (by simpa using hq)
        rw [hfront, h.below q (by simpa using hq)]
        exact congrArg _ (choices_of_plain _ after hafter)

theorem candidates_of_single {t : Vantage} (h : t.Coherent) (path : Path)
    (before after : List String) (hsegments : path.segments = before ++ Path.wildcard :: after)
    (hbefore : Path.wildcard ∉ before) (hafter : Path.wildcard ∉ after) :
    t.candidates path
      = ((t.reach? [] before).elim [] fun q => (t.below q).keys).map fun key =>
          Path.join (before ++ key.text :: after) path.separator := by
  rw [candidates, hsegments, choices_of_single h before after hbefore hafter,
    Forest.combinations_of_single]
  cases t.reach? [] before with
  | none => rfl
  | some q => simp only [Option.elim_some, List.map_map, Function.comp_def]

/-- If the segments before the only wildcard lead nowhere, or to a leaf, nothing survives. -/
theorem survivors_of_single_of_leaf {t : Vantage} (h : t.Coherent) (path : Path)
    (before after : List String) (hsegments : path.segments = before ++ Path.wildcard :: after)
    (hbefore : Path.wildcard ∉ before) (hafter : Path.wildcard ∉ after)
    (hleaf : ∀ q, t.reach? [] before = some q → (t.below q).isContainer = false) :
    t.survivors path = [] := by
  rw [survivors, candidates_of_single h path before after hsegments hbefore hafter]
  cases hreach : t.reach? [] before with
  | none => rfl
  | some q =>
      rw [Option.elim_some, h.below q (hleaf q hreach)]
      rfl

/-- If the keys at the place before the only wildcard have texts that mean nothing else in a path,
    those survive from which the segments after the wildcard lead on, in the order of the keys. -/
theorem survivors_of_single {t : Vantage} (h : t.Coherent) (text separator : String) (c : Char)
    (hseparator : separator.toList = [c]) (before after : List String)
    (hsegments : (Path.parse text separator).segments = before ++ Path.wildcard :: after)
    (hbefore : Path.wildcard ∉ before) (hafter : Path.wildcard ∉ after) (q : List Key)
    (hreach : t.reach? [] before = some q)
    (hkeys : ∀ key ∈ (t.below q).keys, key.Unambiguous c) :
    t.survivors (Path.parse text separator)
      = (t.below q).keys.filterMap fun key => (t.branch? q key after).map fun place =>
          (Path.join (before ++ key.text :: after) separator, (t.below place).value) := by
  rw [survivors, candidates_of_single h _ before after hsegments hbefore hafter, hreach,
    Option.elim_some, List.filterMap_map]
  refine List.filterMap_congr fun key hkey => ?_
  have hplain := hkeys key hkey
  have hback := hplain.segments_join text separator hseparator before after hsegments
  have hlength : (before ++ key.text :: after).length = (Path.parse text separator).length := by
    rw [Path.length, hsegments, List.length_append, List.length_append, List.length_cons,
      List.length_cons]
  -- And then it leads through the place that the key was found at.
  have hwalk : t.walk? [] (before ++ key.text :: after) = t.branch? q key after := by
    have hall : t.walk? [] (before ++ key.text :: after)
        = t.reach? [] (before ++ key.text :: after) := by
      cases before with
      | nil => exact walk?_eq_reach? h [] _ _
      | cons raw rest => exact walk?_eq_reach? h [] _ _
    rw [hall, reach?_append, hreach, Option.bind_some, reach?, get?_of_plain _ _ _ hplain.plain,
      hplain.canonical, branch?]
  rw [Function.comp_apply, attempt?,
    show (Path.parse text separator).separator = separator from rfl, hback, if_pos hlength, hwalk]

end Vantage

end DocTree
