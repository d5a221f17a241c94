import Mathlib
import DocTree.Proofs.Forest.Basic

/-!
# Mutations of One Slot

All that a program can do to a document through a view, as one type with one account
of its effect. A mutation reads the container in the slot of a view, makes another
container and an answer of it by a pure function, writes the container back and
loads the view again.

The effect is stated as `Rewritten`: what the slot holds afterwards, what stays as it
was, and what the snapshot of the view is then. The slot is one place in a tree of
containers, so a container on the way to it does change, but keeps its keys in their
order; a location that parts from that of the view does not notice.

What is written depends on where the view looks and on the data alone. That is why
a stale view may write: nothing is taken from its snapshot.

## Main definitions

* `Mutation`, `Reply`: the mutations, and what they answer.
* `Mutation.perform`: a mutation through a view.
* `Mutation.isRefused`, `Mutation.result`, `Mutation.reply`: its pure content.
* `Forest.Holds`: a container view whose slot holds a container.
* `Forest.Rewritten`: the effect of a write through a view.

## Theorems

* `perform_of_container?`, `perform_of_none`: a mutation as a write, or as nothing.
* `perform_cases`: there is no third way.
* `reload_write`: a write followed by a load, as one change of a forest.
* `rewritten_write`: a write followed by a load has the effect of `Rewritten`.
* `reload_write_reload_write`: of two writes through a view only the second is seen.
* `documents_write_self`: writing what the slot holds changes no document.
* `perform_refines_result`: every mutation has the effect of its pure content, or
  none at all, and snapshots play no part in either.
-/

namespace DocTree

/-- A mutation of the container in the slot of a view, with its arguments. -/
inductive Mutation where
  | set (path : String) (value : Value) (separator : String)
  | append (values : List Value)
  | prepend (values : List Value)
  | shift
  | pop
  | merge (value : Value)

/-- What a mutation answers when it answers: that it was done, or the value it took out. -/
inductive Reply where
  | done
  | taken (value : Value)

namespace Mutation

/-- The mutation is refused whatever it is asked of: a segment of its path is empty. -/
def isRefused : Mutation → Bool
  | set path _ separator => (Path.parse path separator).segments.any String.isEmpty
  | _ => false

/-- The container that the mutation makes of another. -/
def result (m : Mutation) (c : Entries Value) : Entries Value :=
  match m with
  | set path w separator => c.setPath ((Path.parse path separator).segments.map Key.parse) w
  | append vs => vs.foldl Entries.push c
  | prepend vs => Entries.prepend c vs
  | shift => Entries.renumber c.tail
  | pop => c.dropLast
  | merge w => Value.mergeEntries c w.toEntries

/-- What the mutation answers on a container. There is nothing to take out of an empty one. -/
def reply (m : Mutation) (c : Entries Value) : Option Reply :=
  match m with
  | shift => c.head?.map fun e => .taken e.2
  | pop => c.getLast?.map fun e => .taken e.2
  | _ => some .done

/-- The mutation through a view. -/
def perform (m : Mutation) (f : Forest) (n : ViewId) : Option Reply × Forest :=
  let done (r : Option Unit × Forest) : Option Reply × Forest := (r.1.map fun _ => .done, r.2)
  let taken (r : Option Value × Forest) : Option Reply × Forest := (r.1.map .taken, r.2)
  match m with
  | set path w separator => done (f.set n path w separator)
  | append vs => done (f.append n vs)
  | prepend vs => done (f.prepend n vs)
  | shift => taken (f.shift n)
  | pop => taken (f.pop n)
  | merge w => done (f.merge n w)

end Mutation

namespace Forest

/-- The view `n`, which is `v`, is a container view whose slot holds this container. -/
structure Holds (f : Forest) (n : ViewId) (v : View) (c : Entries Value) : Prop where
  view : f.view? n = some v
  kind : v.isContainer = true
  slot : f.slotAt? v.document v.location = some (.container c)

/-- Going from `f` to `g` writes this container into the slot of the view `n`, which was
    `v`, and loads that view again. -/
structure Rewritten (f g : Forest) (n : ViewId) (v : View) (c : Entries Value) : Prop where
  slot : g.slotAt? v.document v.location = some (.container c)
  /-- Other documents, and locations that part from that of the view, are as before. -/
  frame : ∀ d q, d ≠ v.document ∨ Value.Incomparable v.location q →
    g.slotAt? d q = f.slotAt? d q
  /-- A container on the way to the slot keeps its keys in their order. -/
  onTheWay : ∀ p e, p <+: v.location → p ≠ v.location →
    f.slotAt? v.document p = some (.container e) →
    ∃ e', g.slotAt? v.document p = some (.container e') ∧ Entries.keys e' = Entries.keys e
  view : g.view? n = some (v.withSnapshot (Snapshot.ofKeys (Entries.keys c)))
  live : g.keys n = g.liveKeys n
  keys : g.keys n = Entries.keys c
  cursor : g.cursor n = none
  others : ∀ m, m ≠ n → g.view? m = f.view? m

/-- A view has a container to change if it is a container view and its slot holds one. -/
theorem container?_eq_some_iff (f : Forest) (n : ViewId) (c : Entries Value) :
    f.container? n = some c ↔ ∃ v, f.Holds n v c := by
  constructor
  · intro h
    -- A view, of a container, whose slot holds a container: each of the three may fail.
    cases hv : f.view? n with
    | none => simp [container?, isContainer, hv] at h
    | some v =>
        simp only [container?, isContainer_of_view? f n v hv, slot?_of_view? f n v hv] at h
        by_cases hk : v.isContainer = true
        · rw [if_pos hk, Option.bind_eq_some_iff] at h
          rcases h with ⟨u, hu, hc⟩
          cases u with
          | container d =>
              simp only [Value.entries?, Option.some.injEq] at hc
              exact ⟨v, hv, hk, by rw [hu, hc]⟩
          | _ => simp [Value.entries?] at hc
        · rw [if_neg hk] at h
          exact absurd h (by simp)
  · rintro ⟨v, hv, hk, hslot⟩
    simp only [container?, isContainer_of_view? f n v hv, slot?_of_view? f n v hv, hk, hslot,
      if_true, Option.bind_some, Value.entries?]

theorem Holds.value {f : Forest} {n : ViewId} {v : View} {c : Entries Value}
    (h : f.Holds n v c) : f.value n = .container c :=
  value_eq_of_slot? f n _ (by rw [slot?_of_view? f n v h.view, h.slot])

/-- A write changes the one document, and in it the one slot. -/
theorem documents_write (f : Forest) (n : ViewId) (v : View) (c : Entries Value) (w : Value)
    (h : f.Holds n v c) :
    ∃ d d', f.documents[v.document]? = some d ∧ d.replace? v.location w = some d' ∧
      ∀ k, (f.write n w).documents[k]? = if v.document = k then some d' else f.documents[k]? := by
  have hslot := h.slot
  simp only [slotAt?, Option.bind_eq_some_iff] at hslot
  rcases hslot with ⟨d, hd, hlookup⟩
  rcases Value.exists_replace? d _ w v.location hlookup with ⟨d', hd'⟩
  refine ⟨d, d', hd, hd', fun k => ?_⟩
  simp only [write, h.view, Array.getElem?_modify]
  by_cases hk : v.document = k
  · rw [if_pos hk, if_pos hk, ← hk, hd, Option.map_some, hd', Option.getD_some]
  · rw [if_neg hk, if_neg hk]

theorem views_write (f : Forest) (n : ViewId) (w : Value) : (f.write n w).views = f.views := by
  unfold write
  split <;> rfl

/-- A write changes no view. -/
theorem view?_write (f : Forest) (n m : ViewId) (w : Value) :
    (f.write n w).view? m = f.view? m := by
  rw [view?, views_write, view?]

/-- What is written can be read back. -/
theorem slotAt?_write_self (f : Forest) (n : ViewId) (v : View) (c : Entries Value) (w : Value)
    (h : f.Holds n v c) : (f.write n w).slotAt? v.document v.location = some w := by
  rcases documents_write f n v c w h with ⟨old, new, _, hnew, hdocs⟩
  rw [slotAt?, hdocs, if_pos rfl, Option.bind_some]
  exact Value.lookup_replace?_self old w new v.location hnew

/-- The live keys of a view are those of what was written through it. -/
theorem liveKeys_write (f : Forest) (n : ViewId) (v : View) (c d : Entries Value)
    (h : f.Holds n v c) : (f.write n (.container d)).liveKeys n = Entries.keys d := by
  have hview : (f.write n (.container d)).view? n = some v := by
    rw [view?_write, h.view]
  rw [liveKeys, value_eq_of_slot? _ n (.container d)
    (by rw [slot?_of_view? _ n v hview, slotAt?_write_self f n v c _ h])]
  rfl

/-- Writing the slot of a view and loading the view again changes one document and one view. -/
theorem reload_write (f : Forest) (n : ViewId) (v : View) (c d : Entries Value)
    (h : f.Holds n v c) :
    (f.write n (.container d)).reload n
      = { f with
          documents := f.documents.modify v.document fun x =>
            (x.replace? v.location (.container d)).getD x
          views := f.views.modify n (·.withSnapshot (Snapshot.ofKeys (Entries.keys d))) } := by
  rw [reload_eq_update, liveKeys_write f n v c d h, write]
  simp only [h.view]
  rfl

/-- Writing the slot of a view and loading the view again has the effect of `Rewritten`. -/
theorem rewritten_write (f : Forest) (n : ViewId) (v : View) (c d : Entries Value)
    (h : f.Holds n v c) :
    f.Rewritten ((f.write n (.container d)).reload n) n v d := by
  rcases documents_write f n v c (.container d) h with ⟨old, new, hold, hnew, hdocs⟩
  -- Before and after, a slot of the document is read from one value.
  have hat : ∀ q, (f.write n (.container d)).slotAt? v.document q = new.lookup q := by
    intro q
    rw [slotAt?, hdocs, if_pos rfl, Option.bind_some]
  have hbefore : ∀ q, f.slotAt? v.document q = old.lookup q := by
    intro q
    rw [slotAt?, hold, Option.bind_some]
  have hslot := slotAt?_write_self f n v c (.container d) h
  have hview : (f.write n (.container d)).view? n = some v := by
    rw [view?_write, h.view]
  -- The load comes after the write, so it takes the keys of what was written.
  have hlive := liveKeys_write f n v c d h
  have hview' : ((f.write n (.container d)).reload n).view? n
      = some (v.withSnapshot (Snapshot.ofKeys (Entries.keys d))) := by
    rw [reload_eq_update, view?_update, if_pos rfl, hview, hlive, Option.map_some]
  have hsnap : ((f.write n (.container d)).reload n).snapshot? n
      = some (Snapshot.ofKeys (Entries.keys d)) := by
    rw [snapshot?_of_view? _ n _ hview', View.snapshot?_withSnapshot, h.kind, if_pos rfl]
  have hkeys : ((f.write n (.container d)).reload n).keys n = Entries.keys d := by
    rw [keys, hsnap, Option.map_some, Option.getD_some, Snapshot.keys_ofKeys]
  refine ⟨hslot, ?_, ?_, hview', ?_, hkeys, ?_, ?_⟩
  · intro k q hkq
    rw [reload_eq_update, slotAt?_update]
    by_cases hk : k = v.document
    · -- In the document itself only an incomparable location is left.
      rcases hkq with hne | hq
      · exact absurd hk hne
      · rw [hk, hat, hbefore]
        exact Value.lookup_replace?_incomparable old _ new v.location q hnew hq
    · rw [slotAt?, slotAt?, hdocs, if_neg (fun e => hk e.symm)]
  · intro p e hp hne he
    rcases hp with ⟨q, hq⟩
    -- The location goes on below the container, by at least one key.
    cases q with
    | nil => exact absurd (by simpa using hq) hne
    | cons key q =>
        rw [← hq] at hnew
        rw [hbefore] at he
        rcases Value.keys_of_replace? old _ new p q key e hnew he with ⟨e', he', hkeys'⟩
        exact ⟨e', by rw [reload_eq_update, slotAt?_update, hat, he'], hkeys'⟩
  · rw [hkeys, liveKeys, value_eq_of_slot? _ n (.container d)]
    · rfl
    · rw [slot?_of_view? _ n _ hview', (View.agrees_withSnapshot v _).document,
        (View.agrees_withSnapshot v _).location, reload_eq_update, slotAt?_update, hslot]
  · rw [cursor, hsnap, Option.bind_some, Snapshot.cursor_ofKeys]
  · intro m hm
    rw [reload_eq_update, view?_update, if_neg (fun e => hm e.symm), view?_write]

/-- A view that has written holds what it wrote. -/
theorem Rewritten.holds {f g : Forest} {n : ViewId} {v : View} {c d : Entries Value}
    (h : f.Holds n v c) (hg : f.Rewritten g n v d) :
    g.Holds n (v.withSnapshot (Snapshot.ofKeys (Entries.keys d))) d := by
  have hagrees := v.agrees_withSnapshot (Snapshot.ofKeys (Entries.keys d))
  refine ⟨hg.view, ?_, ?_⟩
  · rw [hagrees.kind, h.kind]
  · rw [hagrees.document, hagrees.location, hg.slot]

/-- Two changes of an array in one place are one change, if they come to that where they meet. -/
theorem modify_modify {α : Type} (as : Array α) (i : Nat) (g h k : α → α)
    (hmeet : ∀ a ∈ as[i]?, h (g a) = k a) : (as.modify i g).modify i h = as.modify i k := by
  refine Array.ext_getElem? fun j => ?_
  simp only [Array.getElem?_modify]
  by_cases hi : i = j
  · rw [if_pos hi, if_pos hi, if_pos hi, Option.map_map]
    exact Option.map_congr fun a ha => hmeet a (by rwa [hi])
  · rw [if_neg hi, if_neg hi, if_neg hi]

/-- Of two writes through one view only the second is seen. -/
theorem reload_write_reload_write {f : Forest} {n : ViewId} {v : View} {c d e : Entries Value}
    (h : f.Holds n v c) :
    (((f.write n (.container d)).reload n).write n (.container e)).reload n
      = (f.write n (.container e)).reload n := by
  have hagrees := View.agrees_withSnapshot v (Snapshot.ofKeys (Entries.keys d))
  rw [reload_write _ n _ d e ((rewritten_write f n v c d h).holds h), reload_write f n v c d h,
    reload_write f n v c e h, hagrees.document, hagrees.location]
  have hviews := modify_modify f.views n
    (·.withSnapshot (Snapshot.ofKeys (Entries.keys d)))
    (·.withSnapshot (Snapshot.ofKeys (Entries.keys e)))
    (·.withSnapshot (Snapshot.ofKeys (Entries.keys e)))
    fun w _ => w.withSnapshot_withSnapshot _ _
  have hdocuments := modify_modify f.documents v.document
    (fun x => (x.replace? v.location (.container d)).getD x)
    (fun x => (x.replace? v.location (.container e)).getD x)
    (fun x => (x.replace? v.location (.container e)).getD x) fun x hx => ?_
  · rw [hviews, hdocuments]
  · -- The slot is there, so neither write fails.
    have hslot := h.slot
    rw [slotAt?, hx, Option.bind_some] at hslot
    rcases Value.exists_replace? x _ (.container d) v.location hslot with ⟨x', hx'⟩
    rcases Value.exists_replace? x _ (.container e) v.location hslot with ⟨y, hy⟩
    have hy' := (Value.replace?_replace? x _ (.container e) x' v.location hx').trans hy
    rw [hx', Option.getD_some, hy', hy, Option.getD_some, Option.getD_some]

/-- Writing what is there changes no document. -/
theorem documents_write_self {f : Forest} {n : ViewId} {v : View} {c : Entries Value}
    (h : f.Holds n v c) :
    (f.write n (.container c)).documents = f.documents := by
  rcases documents_write f n v c (.container c) h with ⟨x, x', hx, hx', hdocuments⟩
  have hslot := h.slot
  rw [slotAt?, hx, Option.bind_some] at hslot
  have hsame : x' = x :=
    Option.some.inj (hx'.symm.trans (Value.replace?_of_lookup x _ v.location hslot))
  refine Array.ext_getElem? fun k => ?_
  rw [hdocuments]
  split
  · rename_i hk
    rw [← hk, hx, hsame]
  · rfl

/-- A forest with a stale view: the container under `a` has been written through the view 3
    since the view 1 of it was loaded. -/
def aliased : Forest :=
  let f := ((ofDocuments [.container [(.name "a", .container [])]]).root 0).2
  let f := (f.child 0 (.name "a")).2
  let f := (f.root 0).2
  let f := (f.child 2 (.name "a")).2
  (f.append 3 [.int 7]).2

/-- The stale view of `aliased`. -/
def staleView : View :=
  ⟨0, [.name "a"], some (.name "a"), some 0, .container (Snapshot.ofKeys []) []⟩

end Forest

namespace Mutation

open Forest

/-- On a container a change writes what it makes of the container. -/
theorem mutate_of_container? {α : Type} (f : Forest) (n : ViewId) (c : Entries Value)
    (hc : f.container? n = some c) (op : Entries Value → α × Entries Value) :
    f.mutate n op = (some (op c).1, (f.write n (.container (op c).2)).reload n) := by
  simp only [mutate, hc]

/-- On a container a mutation that is not refused writes its result. -/
theorem perform_of_container? (m : Mutation) (f : Forest) (n : ViewId) (c : Entries Value)
    (hc : f.container? n = some c) (hm : m.isRefused = false) :
    m.perform f n = (m.reply c, (f.write n (.container (m.result c))).reload n) := by
  cases m with
  | set path w separator =>
      simp only [isRefused] at hm
      simp only [perform, Forest.set, hm, Bool.false_eq_true, if_false,
        mutate_of_container? f n c hc]
      rfl
  | shift =>
      simp only [perform, Forest.shift, mutate_of_container? f n c hc, reply, result]
      cases c.head? <;> rfl
  | pop =>
      simp only [perform, Forest.pop, mutate_of_container? f n c hc, reply, result]
      cases c.getLast? <;> rfl
  | _ =>
      simp only [perform, Forest.append, Forest.prepend, Forest.merge,
        mutate_of_container? f n c hc]
      rfl

/-- A mutation that is refused, or finds no container to write, changes nothing at all. -/
theorem perform_of_none (m : Mutation) (f : Forest) (n : ViewId)
    (h : f.container? n = none ∨ m.isRefused = true) : m.perform f n = (none, f) := by
  have hmutate : f.container? n = none → ∀ (α : Type) (op : Entries Value → α × Entries Value),
      f.mutate n op = (none, f) := by
    intro hc α op
    simp only [mutate, hc]
  cases m with
  | set path w separator =>
      simp only [isRefused] at h
      -- The empty segment is found before the container is looked for.
      by_cases hany : (Path.parse path separator).segments.any String.isEmpty = true
      · simp only [perform, Forest.set, hany, if_true, Option.map_none]
      · rw [or_iff_left hany] at h
        simp only [perform, Forest.set, hmutate h, ite_self, Option.map_none]
  | _ =>
      simp only [isRefused, Bool.false_eq_true, or_false] at h
      simp only [perform, Forest.append, Forest.prepend, Forest.merge, Forest.shift, Forest.pop,
        hmutate h, Option.map_none, Option.join_none]

/-- A mutation does nothing, or it writes its result into a slot and loads the view. -/
theorem perform_cases (m : Mutation) (f : Forest) (n : ViewId) :
    m.perform f n = (none, f) ∨
      ∃ v c, f.Holds n v c ∧
        m.perform f n = (m.reply c, (f.write n (.container (m.result c))).reload n) := by
  by_cases hnone : f.container? n = none ∨ m.isRefused = true
  · exact Or.inl (perform_of_none m f n hnone)
  · push Not at hnone
    rcases Option.ne_none_iff_exists'.mp hnone.1 with ⟨c, hc⟩
    rcases (container?_eq_some_iff f n c).mp hc with ⟨v, hv⟩
    exact Or.inr ⟨v, c, hv, perform_of_container? m f n c hc (by simpa using hnone.2)⟩

/-- The container that a mutation finds is that of the slot and the kind of the view. -/
theorem container?_congr (f g : Forest) (n k : ViewId) (v w : View) (hv : f.view? n = some v)
    (hw : g.view? k = some w) (hlocation : w.location = v.location)
    (hkind : w.isContainer = v.isContainer)
    (hdocument : g.documents[w.document]? = f.documents[v.document]?) :
    g.container? k = f.container? n := by
  simp only [container?, isContainer_of_view? f n v hv, isContainer_of_view? g k w hw, hkind,
    slot?_of_view? f n v hv, slot?_of_view? g k w hw, slotAt?, hdocument, hlocation]

/-- What is written depends on the location of the view and on the data of its document, not
    on what the view remembers. -/
theorem documents_perform_congr (m : Mutation) (f g : Forest) (n k : ViewId) (v w : View)
    (hv : f.view? n = some v) (hw : g.view? k = some w) (hlocation : w.location = v.location)
    (hkind : w.isContainer = v.isContainer)
    (hdocument : g.documents[w.document]? = f.documents[v.document]?) :
    (m.perform g k).1 = (m.perform f n).1 ∧
      (m.perform g k).2.documents[w.document]? = (m.perform f n).2.documents[v.document]? := by
  have hcontainer := container?_congr f g n k v w hv hw hlocation hkind hdocument
  by_cases hnone : f.container? n = none ∨ m.isRefused = true
  · rw [perform_of_none m f n hnone, perform_of_none m g k (by rw [hcontainer]; exact hnone)]
    exact ⟨rfl, hdocument⟩
  · push Not at hnone
    rcases Option.ne_none_iff_exists'.mp hnone.1 with ⟨c, hc⟩
    have hm : m.isRefused = false := by simpa using hnone.2
    rw [perform_of_container? m f n c hc hm, perform_of_container? m g k c (hcontainer.trans hc) hm]
    refine ⟨rfl, ?_⟩
    simp only [reload_eq_update, documents_update, write, hv, hw, Array.getElem?_modify, if_true,
      hlocation, hdocument]

/-- Every mutation has the effect of its pure content on the container that its view looks at,
    and where there is none, or a segment of the path is empty, it changes nothing at all.
    Neither the effect on the document nor the answer depends on what the view remembers. -/
theorem perform_refines_result (m : Mutation) (f : Forest) (n : ViewId) :
    (∀ v c, f.Holds n v c → m.isRefused = false →
      (m.perform f n).1 = m.reply c ∧ f.Rewritten (m.perform f n).2 n v (m.result c)) ∧
    ((∀ v c, ¬ f.Holds n v c) ∨ m.isRefused = true → m.perform f n = (none, f)) ∧
    (∀ g k v w, f.view? n = some v → g.view? k = some w → w.location = v.location →
      w.isContainer = v.isContainer → g.documents[w.document]? = f.documents[v.document]? →
      (m.perform g k).1 = (m.perform f n).1 ∧
        (m.perform g k).2.documents[w.document]? = (m.perform f n).2.documents[v.document]?) := by
  refine ⟨fun v c h hm => ?_, fun h => ?_, fun g k v w => documents_perform_congr m f g n k v w⟩
  · have hc : f.container? n = some c := (container?_eq_some_iff f n c).mpr ⟨v, h⟩
    rw [perform_of_container? m f n c hc hm]
    exact ⟨rfl, rewritten_write f n v c (m.result c) h⟩
  · refine perform_of_none m f n (h.imp_left fun hno => ?_)
    rw [Option.eq_none_iff_forall_ne_some]
    intro c hc
    rcases (container?_eq_some_iff f n c).mp hc with ⟨v, hv⟩
    exact hno v c hv

/-- A deep write through a stale view keeps the entry that the view has not seen. -/
theorem set_through_stale_view :
    let m := set "b/c" (.bool true) "/"
    aliased.Holds 1 staleView [(.index 0, .int 7)] ∧ m.isRefused = false ∧
      (m.perform aliased 1).1 = some .done ∧
      aliased.Rewritten (m.perform aliased 1).2 1 staleView
        [(.index 0, .int 7), (.name "b", .container [(.name "c", .bool true)])] := by
  have holds : aliased.Holds 1 staleView [(.index 0, .int 7)] := ⟨rfl, rfl, rfl⟩
  have accepted : (set "b/c" (.bool true) "/").isRefused = false := by decide
  exact ⟨holds, accepted,
    (perform_refines_result (set "b/c" (.bool true) "/") aliased 1).1 staleView _ holds accepted⟩

end Mutation

end DocTree
