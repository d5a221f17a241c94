import Mathlib
import DocTree.Proofs.Location

/-!
# Deep Writes

A deep write puts a value at a location below a container, whether or not there is
anything at that location yet. It goes down through the containers that are there,
and where one is missing, or a scalar is in its place, it starts an empty one.

Seen from any container on the way, it is a deep write at the rest of the location.
That is the one fact about it that needs the recursion; the rest follows from what a
single insertion does to a container. So a container on the way keeps its entries in
their order and gets at most one new key, at the end.

## Main definitions

* `Entries.below`: the container that a deep write goes on in.

## Theorems

* `setPath_cons`: a deep write is an insertion of a deep write.
* `lookup_setPath_self`: the value can be read where it was written.
* `lookup_setPath_incomparable`: a deep write is not seen at an incomparable location.
* `lookup_setPath_append`: a deep write seen from a container on the way.
* `keys_setPath`: what a deep write does to the keys of a container.
* `setPath_setPath`: of two deep writes at one location only the second is seen.
-/

namespace DocTree

namespace Entries

/-- The container under a key, or an empty one if there is none. -/
def below (c : Entries Value) (key : Key) : Entries Value :=
  ((get? c key).bind Value.entries?).getD []

theorem setPath_singleton (c : Entries Value) (key : Key) (w : Value) :
    c.setPath [key] w = insert c key w := rfl

theorem setPath_cons (c : Entries Value) (key : Key) (location : List Key) (w : Value)
    (h : location ≠ []) :
    c.setPath (key :: location) w
      = insert c key (.container ((c.below key).setPath location w)) := by
  cases location with
  | nil => exact absurd rfl h
  | cons next location => rfl

theorem below_of_container (c e : Entries Value) (key : Key)
    (h : get? c key = some (.container e)) : c.below key = e := by
  rw [below, h]
  rfl

theorem below_eq_nil_or (c : Entries Value) (key : Key) :
    c.below key = [] ∨ get? c key = some (.container (c.below key)) := by
  cases hget : get? c key with
  | none => exact Or.inl (by rw [below, hget]; rfl)
  | some u =>
      cases u with
      | container e => exact Or.inr (by rw [below_of_container c e key hget])
      | _ => exact Or.inl (by rw [below, hget]; rfl)

/-- Further down there is the same to read in the container that a deep write goes on in as in
    what the key held before: nothing, unless it was that container. -/
theorem lookup_below (c : Entries Value) (key next : Key) (location : List Key) :
    (Value.container (c.below key)).lookup (next :: location)
      = (get? c key).bind fun u => u.lookup (next :: location) := by
  cases hget : get? c key with
  | none => simp [below, hget, Value.lookup, get?]
  | some u =>
      cases u with
      | container e => rw [below_of_container c e key hget, Option.bind_some]
      | _ => simp [below, hget, Value.lookup, Value.child?, Value.entries?, get?]

/-- The value can be read where it was written. -/
theorem lookup_setPath_self (c : Entries Value) (location : List Key) (w : Value)
    (h : location ≠ []) : (Value.container (c.setPath location w)).lookup location = some w := by
  induction location generalizing c with
  | nil => exact absurd rfl h
  | cons key location ih =>
      by_cases hlocation : location = []
      · subst hlocation
        simp only [setPath_singleton, Value.lookup, Value.child?_container, get?_insert_self,
          Option.bind_some]
      · rw [setPath_cons c key location w hlocation]
        simp only [Value.lookup, Value.child?_container, get?_insert_self, Option.bind_some]
        exact ih (c.below key) hlocation

/-- A deep write is not seen at an incomparable location. -/
theorem lookup_setPath_incomparable (c : Entries Value) (p q : List Key) (w : Value)
    (h : Value.Incomparable p q) :
    (Value.container (c.setPath p w)).lookup q = (Value.container c).lookup q := by
  induction p generalizing c q with
  | nil => exact absurd List.nil_prefix h.1
  | cons key p ih =>
      cases q with
      | nil => exact absurd List.nil_prefix h.2
      | cons other q =>
          by_cases hk : other = key
          · -- Same key: the locations part further down, so both go on.
            subst hk
            have hrest : Value.Incomparable p q :=
              ⟨fun hp => h.1 (List.cons_prefix_cons.mpr ⟨rfl, hp⟩),
                fun hq => h.2 (List.cons_prefix_cons.mpr ⟨rfl, hq⟩)⟩
            have hp : p ≠ [] := fun hp => hrest.1 (hp ▸ List.nil_prefix)
            rw [setPath_cons c other p w hp, Value.lookup, Value.child?_container,
              get?_insert_self, Option.bind_some, ih (c.below other) q hrest]
            cases q with
            | nil => exact absurd List.nil_prefix hrest.2
            | cons next q => rw [lookup_below, Value.lookup, Value.child?_container]
          · -- The locations part here.
            have hinsert : ∃ u, c.setPath (key :: p) w = insert c key u := by
              by_cases hp : p = []
              · exact ⟨w, by rw [hp, setPath_singleton]⟩
              · exact ⟨_, setPath_cons c key p w hp⟩
            rcases hinsert with ⟨u, hu⟩
            rw [hu, Value.lookup, Value.lookup, Value.child?_container, Value.child?_container,
              get?_insert_of_ne c key other u hk]

/-- Seen from a container on the way, a deep write is one at the rest of the location. -/
theorem lookup_setPath_append (c e : Entries Value) (p q : List Key) (w : Value)
    (h : (Value.container c).lookup p = some (.container e)) (hq : q ≠ []) :
    (Value.container (c.setPath (p ++ q) w)).lookup p = some (.container (e.setPath q w)) := by
  induction p generalizing c with
  | nil =>
      simp only [Value.lookup, Option.some.injEq, Value.container.injEq] at h
      rw [List.nil_append, h, Value.lookup]
  | cons key p ih =>
      have hne : p ++ q ≠ [] := fun h => hq (List.append_eq_nil_iff.mp h).2
      simp only [Value.lookup, Value.child?_container, Option.bind_eq_some_iff] at h
      rcases h with ⟨u, hu, hlookup⟩
      -- The first key holds a container, since the way goes through it or ends there.
      have hcontainer : ∃ d, u = .container d := by
        cases p with
        | nil => exact ⟨e, Option.some.inj hlookup⟩
        | cons next p =>
            simp only [Value.lookup, Option.bind_eq_some_iff] at hlookup
            rcases hlookup with ⟨x, hx, _⟩
            rcases Value.exists_container_of_child? u x next hx with ⟨d, hd, _⟩
            exact ⟨d, hd⟩
      rcases hcontainer with ⟨d, rfl⟩
      rw [List.cons_append, setPath_cons c key (p ++ q) w hne, Value.lookup,
        Value.child?_container, get?_insert_self, Option.bind_some, below_of_container c d key hu]
      exact ih d hlookup

/-- A deep write keeps the keys of a container in their order and adds at most one, the first
    of the location, at the end. -/
theorem keys_setPath (c : Entries Value) (key : Key) (location : List Key) (w : Value) :
    keys (c.setPath (key :: location) w)
      = if key ∈ keys c then keys c else keys c ++ [key] := by
  by_cases hlocation : location = []
  · rw [hlocation, setPath_singleton, keys_insert]
  · rw [setPath_cons c key location w hlocation, keys_insert]

/-- Of two deep writes at one location only the second is seen. -/
theorem setPath_setPath (c : Entries Value) (location : List Key) (v w : Value) :
    (c.setPath location v).setPath location w = c.setPath location w := by
  induction location generalizing c with
  | nil => rfl
  | cons key location ih =>
      by_cases hlocation : location = []
      · rw [hlocation, setPath_singleton, setPath_singleton, setPath_singleton, insert_insert]
      · simp only [setPath_cons _ key location _ hlocation]
        rw [below_of_container _ _ key (get?_insert_self c key _), insert_insert,
          ih (c.below key)]

end Entries

end DocTree
