import Mathlib
import DocTree.View.Mutate
import DocTree.View.Resolve
import DocTree.Proofs.Location

/-!
# What the Primitives of a Forest Change

A forest is changed by a few primitives: one view is updated, one view is made, one
document is added, one slot is written. This module says of each which views and
documents it leaves alone, so that nothing above it has to open them again.

A view that is made is given a slot, a key, a parent and a kind for good. Updates
reach its snapshot and the children it remembers, and nothing else; two states of one
view *agree* in that sense.

## Main definitions

* `View.children`: the children that a view remembers.
* `View.Agrees`: two views differ at most in snapshot and children.

## Theorems

* `agrees_withSnapshot`, `agrees_withChild`: what an update of a view keeps.
* `withSnapshot_withSnapshot`: of two snapshots only the second is seen.
* `view?_update`: the views after an update.
* `view?_makeView`: the views after one has been made.
* `value_eq_of_slot?`: the value of a slot that exists.
* `reload_eq_update`: a reload is an update with the live keys.
-/

namespace DocTree

namespace Snapshot

@[simp] theorem keys_ofKeys (keys : List Key) : (ofKeys keys).keys = keys := rfl

@[simp] theorem cursor_ofKeys (keys : List Key) : (ofKeys keys).cursor = none := rfl

end Snapshot

namespace View

/-- The children that a view remembers; a leaf has none. -/
def children (v : View) : List (Key × ViewId) :=
  match v.face with
  | .container _ children => children
  | .leaf => []

/-- The two differ at most in the snapshot and in the children they remember. -/
structure Agrees (v w : View) : Prop where
  document : w.document = v.document
  location : w.location = v.location
  key : w.key = v.key
  parent : w.parent = v.parent
  kind : w.isContainer = v.isContainer

theorem Agrees.refl (v : View) : v.Agrees v :=
  ⟨rfl, rfl, rfl, rfl, rfl⟩

theorem Agrees.trans {u v w : View} (huv : u.Agrees v) (hvw : v.Agrees w) : u.Agrees w :=
  ⟨hvw.document.trans huv.document, hvw.location.trans huv.location, hvw.key.trans huv.key,
    hvw.parent.trans huv.parent, hvw.kind.trans huv.kind⟩

/-- Another snapshot does not make another view. -/
theorem agrees_withSnapshot (v : View) (s : Snapshot) : v.Agrees (v.withSnapshot s) := by
  rcases v with ⟨d, location, key, parent, face⟩
  cases face with
  | leaf => exact Agrees.refl _
  | container s' children => exact ⟨rfl, rfl, rfl, rfl, rfl⟩

/-- A child more is no other view either. -/
theorem agrees_withChild (v : View) (key : Key) (c : ViewId) (alive : ViewId → Bool) :
    v.Agrees (v.withChild key c alive) := by
  rcases v with ⟨d, location, own, parent, face⟩
  cases face with
  | leaf => exact Agrees.refl _
  | container s children => exact ⟨rfl, rfl, rfl, rfl, rfl⟩

@[simp] theorem children_withSnapshot (v : View) (s : Snapshot) :
    (v.withSnapshot s).children = v.children := by
  rcases v with ⟨d, location, key, parent, face⟩
  cases face <;> rfl

/-- Only a container view has a snapshot. -/
theorem isContainer_of_snapshot? (v : View) (s : Snapshot) (h : v.snapshot? = some s) :
    v.isContainer = true := by
  rcases v with ⟨d, location, key, parent, face⟩
  cases face with
  | leaf => exact absurd h (by simp [snapshot?])
  | container s' children => rfl

theorem isContainer_eq_false_of_snapshot? (v : View) (h : v.snapshot? = none) :
    v.isContainer = false := by
  rcases v with ⟨d, location, key, parent, face⟩
  cases face with
  | leaf => rfl
  | container s' children => exact absurd h (by simp [snapshot?])

/-- Only a container view has a snapshot to replace. -/
theorem snapshot?_withSnapshot (v : View) (s : Snapshot) :
    (v.withSnapshot s).snapshot? = if v.isContainer then some s else none := by
  rcases v with ⟨d, location, key, parent, face⟩
  cases face <;> rfl

theorem withSnapshot_withSnapshot (v : View) (s t : Snapshot) :
    (v.withSnapshot s).withSnapshot t = v.withSnapshot t := by
  rcases v with ⟨d, location, key, parent, face⟩
  cases face <;> rfl

/-- What a view remembers after one more child: that child, and some of those before. -/
theorem mem_children_withChild (v : View) (key : Key) (c : ViewId) (alive : ViewId → Bool)
    (e : Key × ViewId) (h : e ∈ (v.withChild key c alive).children) :
    e = (key, c) ∨ e ∈ v.children := by
  rcases v with ⟨d, location, own, parent, face⟩
  cases face with
  | leaf => exact absurd h (by simp [withChild, children])
  | container s children =>
      simp only [withChild, View.children, List.mem_append, List.mem_filter,
        List.mem_singleton] at h ⊢
      -- The new child is the last one, and those before it have been there.
      rcases h with ⟨hmem, _⟩ | hnew
      · exact Or.inr hmem
      · exact Or.inl hnew

end View

namespace Forest

variable (f : Forest)

/-! ## Views -/

/-- An update changes one view, if it is there. -/
theorem view?_update (n m : ViewId) (change : View → View) :
    (f.update n change).view? m = if n = m then (f.view? m).map change else f.view? m := by
  simp only [view?, update, Array.getElem?_modify]

@[simp] theorem documents_update (n : ViewId) (change : View → View) :
    (f.update n change).documents = f.documents := rfl

@[simp] theorem slotAt?_update (n : ViewId) (change : View → View) (d : DocumentId)
    (location : List Key) : (f.update n change).slotAt? d location = f.slotAt? d location := rfl

theorem lt_of_view? (n : ViewId) (v : View) (h : f.view? n = some v) : n < f.views.size :=
  (Array.getElem?_eq_some_iff.mp h).choose

/-- The face of a view made of a slot that holds this value. -/
theorem view?_makeView (d : DocumentId) (location : List Key) (key : Option Key)
    (parent : Option ViewId) (slot : Value) (m : ViewId) :
    (f.makeView d location key parent slot).2.view? m
      = if m = f.views.size then
          some ⟨d, location, key, parent,
            if slot.isContainer then .container (Snapshot.ofKeys slot.keys) [] else .leaf⟩
        else f.view? m := by
  simp only [makeView, view?, Array.getElem?_push]

/-! ## Slots -/

theorem slot?_of_view? (n : ViewId) (v : View) (h : f.view? n = some v) :
    f.slot? n = f.slotAt? v.document v.location := by
  simp only [slot?, h, Option.bind_some]

theorem isContainer_of_view? (n : ViewId) (v : View) (h : f.view? n = some v) :
    f.isContainer n = v.isContainer := by
  simp only [isContainer, h, Option.map_some, Option.getD_some]

theorem snapshot?_of_view? (n : ViewId) (v : View) (h : f.view? n = some v) :
    f.snapshot? n = v.snapshot? := by
  simp only [snapshot?, h, Option.bind_some]

theorem key_of_view? (n : ViewId) (v : View) (h : f.view? n = some v) : f.key n = v.key := by
  simp only [key, h, Option.bind_some]

theorem parent_of_view? (n : ViewId) (v : View) (h : f.view? n = some v) :
    f.parent n = v.parent := by
  simp only [parent, h, Option.bind_some]

/-- What has a key is a view. -/
theorem exists_view?_of_mem_keys (n : ViewId) (key : Key) (h : key ∈ f.keys n) :
    ∃ v, f.view? n = some v := by
  cases hv : f.view? n with
  | some v => exact ⟨v, rfl⟩
  | none => simp [keys, snapshot?, hv] at h

/-- And it is a container view, since a leaf has no keys. -/
theorem isContainer_of_mem_keys (n : ViewId) (v : View) (key : Key)
    (hv : f.view? n = some v) (hkey : key ∈ f.keys n) : v.isContainer = true := by
  rw [keys, snapshot?_of_view? f n v hv] at hkey
  -- Without a snapshot there would be no key.
  cases hs : v.snapshot? with
  | none => simp [hs] at hkey
  | some s => exact View.isContainer_of_snapshot? v s hs

theorem exists_view?_of_isContainer (n : ViewId) (h : f.isContainer n = true) :
    ∃ v, f.view? n = some v := by
  cases hv : f.view? n with
  | none => simp [isContainer, hv] at h
  | some v => exact ⟨v, rfl⟩

/-- A container view has a snapshot. -/
theorem exists_snapshot?_of_isContainer (n : ViewId) (h : f.isContainer n = true) :
    ∃ s, f.snapshot? n = some s := by
  rcases exists_view?_of_isContainer f n h with ⟨v, hv⟩
  rw [isContainer_of_view? f n v hv] at h
  rw [snapshot?_of_view? f n v hv]
  -- A view without a snapshot would be a leaf.
  cases hs : v.snapshot? with
  | none => exact absurd (v.isContainer_eq_false_of_snapshot? hs) (by simp [h])
  | some s => exact ⟨s, rfl⟩

theorem value_eq_of_slot? (n : ViewId) (u : Value) (h : f.slot? n = some u) : f.value n = u := by
  simp only [value, h, Option.getD_some]

/-- A location may be walked in two parts. -/
theorem slotAt?_append (d : DocumentId) (p q : List Key) :
    f.slotAt? d (p ++ q) = (f.slotAt? d p).bind fun u => u.lookup q := by
  simp only [slotAt?, Value.lookup_append, Option.bind_assoc]

/-- Reading on from the value of a view is reading further down its document, also if its slot
    is gone and the value is null. -/
theorem lookup_value (n : ViewId) (v : View) (hv : f.view? n = some v) (key : Key)
    (location : List Key) :
    (f.value n).lookup (key :: location)
      = f.slotAt? v.document (v.location ++ key :: location) := by
  rw [value, slot?_of_view? f n v hv, slotAt?_append]
  -- Where the slot is gone the value is null, and nothing is below either of them.
  cases f.slotAt? v.document v.location <;> rfl

theorem reload_eq_update (n : ViewId) :
    f.reload n = f.update n (·.withSnapshot (Snapshot.ofKeys (f.liveKeys n))) := rfl

end Forest

end DocTree
