import Mathlib
import DocTree.Value
import DocTree.Proofs.Entries

/-!
# Locations

Reading and writing the slot at a location. A location that goes on below another
is read in two stages, and it is written in two stages as well: the inner write
makes the value that the outer write puts in place.

Two locations are *incomparable* when neither leads on from the other. Then they
part at some container, at two different keys of it, and a write at one is not
seen at the other. A container on the way to a written slot does see the write,
but only as another value under a key it had before.

## Main definitions

* `Incomparable`: neither location leads on from the other.

## Theorems

* `lookup_append`: a location is read in two stages.
* `replace?_append`: a location is written in two stages.
* `exists_replace?`: a slot that exists can be written.
* `lookup_replace?_self`: a written slot holds what was written.
* `replace?_replace?`: of two writes of one slot only the second is seen.
* `replace?_of_lookup`: a slot written with what it holds stays as it is.
* `lookup_replace?_incomparable`: a write is not seen at an incomparable location.
* `replace?_comm`: writes at incomparable locations may be made in either order.
* `keys_of_replace?`: a container on the way keeps its keys in their order.
-/

namespace DocTree

namespace Value

/-- Neither location leads on from the other. -/
def Incomparable (p q : List Key) : Prop :=
  ¬ p <+: q ∧ ¬ q <+: p

theorem Incomparable.symm {p q : List Key} (h : Incomparable p q) : Incomparable q p :=
  ⟨h.2, h.1⟩

@[simp] theorem child?_container (c : Entries Value) (key : Key) :
    (container c).child? key = Entries.get? c key := rfl

theorem keys_of_isContainer_eq_false (v : Value) (h : v.isContainer = false) : v.keys = [] := by
  cases v with
  | container c => exact absurd h (by simp [isContainer])
  | _ => rfl

/-- Only a container has entries. -/
theorem eq_container_of_entries? (v : Value) (c : Entries Value) (h : v.entries? = some c) :
    v = container c := by
  cases v with
  | container d => exact congrArg container (Option.some.inj h)
  | _ => exact absurd h (by simp [entries?])

/-- Only a container has children. -/
theorem exists_container_of_child? (v u : Value) (key : Key) (h : v.child? key = some u) :
    ∃ c, v = container c ∧ Entries.get? c key = some u := by
  cases v with
  | container c => exact ⟨c, rfl, h⟩
  | _ => exact absurd h (by simp [child?, entries?])

theorem lookup_append (v : Value) (p q : List Key) :
    v.lookup (p ++ q) = (v.lookup p).bind fun u => u.lookup q := by
  induction p generalizing v with
  | nil => rfl
  | cons key p ih =>
      simp only [List.cons_append, lookup, ih]
      rw [Option.bind_assoc]

theorem replace?_append (v w : Value) (p q : List Key) :
    v.replace? (p ++ q) w
      = (v.lookup p).bind fun u => (u.replace? q w).bind fun u' => v.replace? p u' := by
  induction p generalizing v with
  | nil => simp [lookup, replace?]
  | cons key p ih =>
      cases v with
      | container c =>
          simp only [List.cons_append, replace?, lookup, child?_container]
          -- Without the first key neither side gets to the inner write.
          cases hget : Entries.get? c key with
          | none => rfl
          | some u =>
              simp only [Option.bind_some, ih]
              cases hu : u.lookup p with
              | none => rfl
              | some x =>
                  simp only [Option.bind_some]
                  cases hx : x.replace? q w <;> rfl
      | _ => rfl

/-- A slot that exists can be written. -/
theorem exists_replace? (v u w : Value) (p : List Key) (h : v.lookup p = some u) :
    ∃ v', v.replace? p w = some v' := by
  induction p generalizing v with
  | nil => exact ⟨w, rfl⟩
  | cons key p ih =>
      simp only [lookup, Option.bind_eq_some_iff] at h
      rcases h with ⟨x, hx, hu⟩
      rcases exists_container_of_child? v x key hx with ⟨c, rfl, hget⟩
      rcases ih x hu with ⟨x', hx'⟩
      exact ⟨container (Entries.overwrite c key x'), by simp [replace?, hget, hx']⟩

/-- A write below a container overwrites the entry under the first key. -/
theorem replace?_container_cons (c : Entries Value) (key : Key) (p : List Key) (w : Value) :
    (container c).replace? (key :: p) w
      = ((Entries.get? c key).bind fun u => u.replace? p w).map fun u =>
          container (Entries.overwrite c key u) := by
  rw [replace?, Option.map_bind]
  rfl

/-- A write opened up one key at a time: the entry under the first key is replaced
    by what the rest of the write makes of it. -/
theorem replace?_cons (v w v' : Value) (key : Key) (p : List Key)
    (h : v.replace? (key :: p) w = some v') :
    ∃ c u u', v = container c ∧ Entries.get? c key = some u ∧ u.replace? p w = some u' ∧
      v' = container (Entries.overwrite c key u') := by
  cases v with
  | container c =>
      simp only [replace?, Option.bind_eq_some_iff, Option.map_eq_some_iff] at h
      rcases h with ⟨u, hu, u', hu', hv'⟩
      exact ⟨c, u, u', rfl, hu, hu', hv'.symm⟩
  | _ => exact absurd h (by simp [replace?])

/-- A written slot holds what was written. -/
theorem lookup_replace?_self (v w v' : Value) (p : List Key) (h : v.replace? p w = some v') :
    v'.lookup p = some w := by
  induction p generalizing v v' with
  | nil => simpa [replace?, lookup] using h.symm
  | cons key p ih =>
      rcases replace?_cons v w v' key p h with ⟨c, u, u', rfl, hget, hu', rfl⟩
      have hself : Entries.get? (Entries.overwrite c key u') key = some u' :=
        Entries.get?_overwrite_self c key u' (by rw [hget]; rfl)
      simp only [lookup, child?_container, hself, Option.bind_some]
      exact ih u u' hu'

/-- Of two writes of one slot only the second is seen. -/
theorem replace?_replace? (v u w v' : Value) (p : List Key) (h : v.replace? p u = some v') :
    v'.replace? p w = v.replace? p w := by
  induction p generalizing v v' with
  | nil => rfl
  | cons key p ih =>
      rcases replace?_cons v u v' key p h with ⟨c, x, x', rfl, hget, hx', rfl⟩
      have hself : Entries.get? (Entries.overwrite c key x') key = some x' :=
        Entries.get?_overwrite_self c key x' (by rw [hget]; rfl)
      simp only [replace?, hself, hget, Option.bind_some, ih x x' hx',
        Entries.overwrite_overwrite]

/-- Writing what the slot holds changes nothing. -/
theorem replace?_of_lookup (v u : Value) (p : List Key) (h : v.lookup p = some u) :
    v.replace? p u = some v := by
  induction p generalizing v with
  | nil => exact h.symm
  | cons key p ih =>
      rw [lookup, Option.bind_eq_some_iff] at h
      rcases h with ⟨x, hx, hu⟩
      rcases exists_container_of_child? v x key hx with ⟨c, rfl, hget⟩
      rw [replace?_container_cons, hget, Option.bind_some, ih x hu, Option.map_some,
        Entries.overwrite_of_get? c key x hget]

/-- A write is not seen at an incomparable location. -/
theorem lookup_replace?_incomparable (v w v' : Value) (p q : List Key)
    (h : v.replace? p w = some v') (hpq : Incomparable p q) : v'.lookup q = v.lookup q := by
  induction p generalizing v v' q with
  | nil => exact absurd (List.nil_prefix) hpq.1
  | cons key p ih =>
      cases q with
      | nil => exact absurd (List.nil_prefix) hpq.2
      | cons other q =>
          rcases replace?_cons v w v' key p h with ⟨c, u, u', rfl, hget, hu', rfl⟩
          by_cases hk : other = key
          · -- Same key: the locations part further down.
            subst hk
            have hrest : Incomparable p q :=
              ⟨fun hp => hpq.1 (List.cons_prefix_cons.mpr ⟨rfl, hp⟩),
                fun hq => hpq.2 (List.cons_prefix_cons.mpr ⟨rfl, hq⟩)⟩
            have hself : Entries.get? (Entries.overwrite c other u') other = some u' :=
              Entries.get?_overwrite_self c other u' (by rw [hget]; rfl)
            simp only [lookup, child?_container, hself, hget, Option.bind_some]
            exact ih u u' q hu' hrest
          · -- The locations part here.
            simp only [lookup, child?_container]
            rw [Entries.get?_overwrite_of_ne c key other u' hk]

/-- Writes at incomparable locations may be made in either order. -/
theorem replace?_comm (v u w : Value) (p q : List Key) (h : Incomparable p q) :
    ((v.replace? p u).bind fun x => x.replace? q w)
      = (v.replace? q w).bind fun x => x.replace? p u := by
  induction p generalizing v q with
  | nil => exact absurd (List.nil_prefix) h.1
  | cons key p ih =>
      cases q with
      | nil => exact absurd (List.nil_prefix) h.2
      | cons other q =>
          cases v with
          | container c =>
              simp only [replace?_container_cons, Option.bind_map, Function.comp_def]
              by_cases hk : other = key
              · -- Same key: both writes go on in the value of one entry.
                subst hk
                have hrest : Incomparable p q :=
                  ⟨fun hp => h.1 (List.cons_prefix_cons.mpr ⟨rfl, hp⟩),
                    fun hq => h.2 (List.cons_prefix_cons.mpr ⟨rfl, hq⟩)⟩
                cases hget : Entries.get? c other with
                | none => rfl
                | some x =>
                    have hself : ∀ y, Entries.get? (Entries.overwrite c other y) other = some y :=
                      fun y => Entries.get?_overwrite_self c other y (by rw [hget]; rfl)
                    simp only [hself, Option.bind_some, Entries.overwrite_overwrite]
                    simpa only [Option.map_bind, Function.comp_def] using
                      congrArg (Option.map fun y => container (Entries.overwrite c other y))
                        (ih x q hrest)
              · -- The locations part here, and the writes are of two entries.
                simp only [Entries.get?_overwrite_of_ne c _ _ _ hk,
                  Entries.get?_overwrite_of_ne c _ _ _ (Ne.symm hk)]
                cases (Entries.get? c key).bind fun x => x.replace? p u with
                | none => simp
                | some x =>
                    cases (Entries.get? c other).bind fun x => x.replace? q w with
                    | none => rfl
                    | some y =>
                        simp only [Option.bind_some, Option.map_some,
                          Entries.overwrite_comm c key other x y hk]
          | _ => rfl

/-- Where both slots exist, neither write fails in either order. -/
theorem getD_replace?_comm (v a b u w : Value) (p q : List Key) (h : Incomparable p q)
    (hp : v.lookup p = some a) (hq : v.lookup q = some b) :
    let x := (v.replace? p u).getD v
    let y := (v.replace? q w).getD v
    (x.replace? q w).getD x = (y.replace? p u).getD y := by
  intro x y
  rcases exists_replace? v a u p hp with ⟨v', hv'⟩
  rcases exists_replace? v b w q hq with ⟨v'', hv''⟩
  have hx : x = v' := congrArg (Option.getD · v) hv'
  have hy : y = v'' := congrArg (Option.getD · v) hv''
  have hcomm := replace?_comm v u w p q h
  rw [hv', hv'', Option.bind_some, Option.bind_some] at hcomm
  -- The slot of the second write is there after the first.
  have hslot := lookup_replace?_incomparable v u v' p q hv' h
  rcases exists_replace? v' b w q (hslot.trans hq) with ⟨z, hz⟩
  rw [hx, hy, ← hcomm, hz]
  rfl

/-- A container on the way to a written slot keeps its keys in their order. -/
theorem keys_of_replace? (v w v' : Value) (p q : List Key) (key : Key) (c : Entries Value)
    (h : v.replace? (p ++ key :: q) w = some v') (hp : v.lookup p = some (container c)) :
    ∃ c', v'.lookup p = some (container c') ∧ Entries.keys c' = Entries.keys c := by
  -- The write is one of the container with an entry of it overwritten.
  rw [replace?_append, hp, Option.bind_some, Option.bind_eq_some_iff] at h
  rcases h with ⟨x, hx, hv'⟩
  rcases replace?_cons _ w x key q hx with ⟨d, u, u', hd, _, _, rfl⟩
  injection hd with hd
  subst hd
  exact ⟨_, lookup_replace?_self v _ v' p hv', Entries.keys_overwrite c key u'⟩

end Value

end DocTree
