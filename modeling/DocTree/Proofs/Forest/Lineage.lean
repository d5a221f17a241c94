import Mathlib
import DocTree.Proofs.Reach
import DocTree.Proofs.Forest.Resolve

/-!
# Lineages and Absolute Paths

A view knows its parent and the key that it has there, and from these the path to it is put
together. It also knows its location, which is all that its reads and writes go by. The two
have to tell the same story: every view is a *root*, or it looks one key further down than
its parent. A forest in which that is so is *rooted*, and every reachable forest is.

In a rooted forest the way up is as long as the location, and the keys on it are those of the
location. The way up always ends, since a parent is older than its children, so a lineage
breaks off for want of fuel at no view.

The texts of the keys are then the absolute path, and that path is taken apart into the same
texts again if each of them means nothing but its key. It leads from a new root, which shows
the document as it is now, to a view of the same slot. Whether the view that the path was
taken from is stale, or was made for another kind of value, does not matter.

## Main definitions

* `View.IsRoot`, `Forest.Rooted`: where every view hangs.
* `Forest.ancestor?`: so many steps up.

## Theorems

* `rooted_move`, `rooted_moves`, `Reachable.rooted`: every reachable forest is rooted.
* `lineage_eq`: a lineage goes on with that of the parent.
* `mem_lineage_iff`, `isAlive_iff`: a lineage has the views that are some steps up.
* `exists_ancestor?`: the view at each number of steps up, and its location.
* `absolutePath_eq`: the absolute path is made of the keys of the location.
* `resolve_join_texts`: the texts of keys, joined, are walked key by key.
* `walkSegments_texts`: the texts of keys lead to the location of the keys.
* `absolutePath_leads_back`: the absolute path leads to the slot of the view.
-/

namespace DocTree

/-- The view hangs from no other. -/
structure View.IsRoot (v : View) : Prop where
  location : v.location = []
  key : v.key = none
  parent : v.parent = none

/-- What agrees with a root is a root. -/
theorem View.IsRoot.of_agrees {v w : View} (h : v.IsRoot) (hvw : v.Agrees w) : w.IsRoot :=
  ⟨hvw.location.trans h.location, hvw.key.trans h.key, hvw.parent.trans h.parent⟩

namespace Forest

/-- Every view is a root, or a child of a view that was made before it. -/
def Rooted (f : Forest) : Prop :=
  ∀ n v, f.view? n = some v → v.IsRoot ∨
    ∃ p w key, p < n ∧ f.view? p = some w ∧ f.IsChild n p w key

/-! ## Steps keep roots -/

/-- Views that are kept hang where they did, so only those that are made matter. -/
theorem rooted_of_extends (f g : Forest) (hf : f.Rooted) (hext : f.Extends g)
    (hnew : ∀ n w, f.view? n = none → g.view? n = some w → w.IsRoot ∨
      ∃ p u key, p < n ∧ g.view? p = some u ∧ g.IsChild n p u key) : g.Rooted := by
  intro n w hw
  cases hv : f.view? n with
  | none => exact hnew n w hv hw
  | some v =>
      rcases hext n v hv with ⟨w', hw', hagrees⟩
      rw [hw, Option.some.injEq] at hw'
      rw [← hw'] at hagrees
      rcases hf n v hv with hroot | ⟨p, u, key, hlt, hu, hchild⟩
      · exact Or.inl (hroot.of_agrees hagrees)
      · rcases hext p u hu with ⟨u', hu', hagrees'⟩
        exact Or.inr ⟨p, u', key, hlt, hu', hchild.mono hext hagrees'⟩

/-- A step that makes no view keeps a forest rooted. -/
theorem rooted_of_none (f g : Forest) (hf : f.Rooted) (hext : f.Extends g)
    (h : ∀ n, f.view? n = none → g.view? n = none) : g.Rooted := by
  refine rooted_of_extends f g hf hext fun n w hv hw => ?_
  rw [h n hv] at hw
  exact absurd hw (by simp)

/-- A new snapshot changes no lineage. -/
theorem rooted_withSnapshot (f : Forest) (hf : f.Rooted) (n : ViewId) (s : Snapshot) :
    (f.update n (·.withSnapshot s)).Rooted := by
  refine rooted_of_none f _ hf (extends_update f n _ fun v => v.agrees_withSnapshot s)
    fun m hm => ?_
  rw [view?_update, hm]
  exact ite_self none

/-- A new root hangs from nothing. -/
theorem rooted_root (f : Forest) (hf : f.Rooted) (d : DocumentId) : (f.root d).2.Rooted := by
  refine rooted_of_extends f _ hf (extends_makeView f d [] none none _) fun n w hv hw => ?_
  rw [root, view?_makeView] at hw
  split at hw
  · rw [← Option.some.inj hw]
    exact Or.inl ⟨rfl, rfl, rfl⟩
  · exact absurd (hv.symm.trans hw) (by simp)

/-- A child hangs from the view that it was made for. -/
theorem rooted_adopt (f : Forest) (hf : f.Rooted) (n : ViewId) (v : View) (key : Key)
    (slot : Value) (hv : f.view? n = some v) : (f.adopt n v key slot).Rooted := by
  have hext := extends_adopt f n v key slot
  refine rooted_of_extends f _ hf hext fun m w hm hw => Or.inr ?_
  -- The view that is made hangs from `n`, and no other view is new.
  by_cases hmade : m = f.views.size
  · rcases hext n v hv with ⟨v', hv', hagrees⟩
    rw [hmade]
    exact ⟨n, v', key, lt_of_view? f n v hv, hv', isChild_adopt f n v v' key slot hv hagrees⟩
  · rw [adopt, view?_update, view?_makeView, if_neg hmade, hm, Option.map_none, ite_self] at hw
    exact absurd hw (by simp)

/-- A move keeps a forest rooted. -/
theorem rooted_move (f g : Forest) (h : Move f g) (hf : f.Rooted) : g.Rooted := by
  have hext := extends_move f g h
  cases h with
  | look _ hlook =>
      cases hlook with
      | add v => exact rooted_of_none f _ hf hext fun _ hm => hm
      | root d => exact rooted_root f hf d
      | child n v key slot hv => exact rooted_adopt f hf n v key slot hv
      | load n => exact rooted_withSnapshot f hf n _
      | cursor n s position => exact rooted_withSnapshot f hf n _
  | write n v c d =>
      refine rooted_of_none f _ hf hext fun m hm => ?_
      rw [view?_write, hm]
  | settle held => exact rooted_of_none f _ hf hext fun _ hm => hm

theorem rooted_moves (f g : Forest) (h : Moves f g) (hf : f.Rooted) : g.Rooted := by
  induction h with
  | refl => exact hf
  | tail _ hmove ih => exact rooted_move _ _ hmove ih

theorem Reachable.rooted {f : Forest} (h : f.Reachable) : f.Rooted := by
  refine h.induction (fun documents => ?_) rooted_move
  intro n v hv
  exact absurd hv (by simp [view?, ofDocuments])

/-! ## The way up -/

/-- The view this many steps up from a view, if the way up is that long. -/
def ancestor? (f : Forest) : Nat → ViewId → Option ViewId
  | 0, n => some n
  | steps + 1, n => (f.parent n).bind (f.ancestor? steps)

/-- What a rooted forest says of a view, in terms of the fields of the view. -/
theorem Rooted.cases {f : Forest} (hf : f.Rooted) (n : ViewId) (v : View)
    (hv : f.view? n = some v) :
    v.IsRoot ∨ ∃ p w key, p < n ∧ f.view? p = some w ∧ v.document = w.document ∧
      v.location = w.location ++ [key] ∧ v.key = some key ∧ v.parent = some p := by
  rcases hf n v hv with hroot | ⟨p, w, key, hlt, hw, v', hv', hfields⟩
  · exact Or.inl hroot
  · rw [hv, Option.some.injEq] at hv'
    rw [hv']
    exact Or.inr ⟨p, w, key, hlt, hw, hfields⟩

/-- A parent is older than its children. -/
theorem Rooted.parent_lt {f : Forest} (hf : f.Rooted) (n p : ViewId) (h : f.parent n = some p) :
    p < n := by
  rcases Option.bind_eq_some_iff.mp h with ⟨v, hv, hparent⟩
  rcases hf.cases n v hv with hroot | ⟨q, _, _, hlt, _, _, _, _, hparent'⟩
  · exact absurd (hroot.parent.symm.trans hparent) (by simp)
  · rw [hparent, Option.some.injEq] at hparent'
    rw [hparent']
    exact hlt

/-- More fuel than the number of a view makes its lineage no longer. -/
theorem lineageWithin_eq (f : Forest) (hf : f.Rooted) (fuel fuel' : Nat) (n : ViewId)
    (h : n < fuel) (h' : n < fuel') : f.lineageWithin fuel n = f.lineageWithin fuel' n := by
  -- Induction on the first fuel. The second is used up in step with it, since each step up goes to
  -- a smaller number.
  induction fuel generalizing fuel' n with
  | zero => exact absurd h (Nat.not_lt_zero n)
  | succ fuel ih =>
      cases fuel' with
      | zero => exact absurd h' (Nat.not_lt_zero n)
      | succ fuel' =>
          rw [lineageWithin, lineageWithin]
          cases hparent : f.parent n with
          | none => rfl
          | some p =>
              have hlt := hf.parent_lt n p hparent
              have hrest := ih fuel' p (Nat.lt_of_lt_of_le hlt (Nat.le_of_lt_succ h))
                (Nat.lt_of_lt_of_le hlt (Nat.le_of_lt_succ h'))
              exact congrArg (n :: ·) hrest

/-- A lineage goes on with that of the parent. -/
theorem lineage_eq (f : Forest) (hf : f.Rooted) (n : ViewId) :
    f.lineage n = n :: (f.parent n).elim [] f.lineage := by
  rw [lineage, lineageWithin]
  cases hparent : f.parent n with
  | none => rfl
  | some p =>
      exact congrArg (n :: ·)
        (lineageWithin_eq f hf n (p + 1) p (hf.parent_lt n p hparent) (Nat.lt_succ_self p))

/-- A lineage has the views that are some steps up, and no others. -/
theorem mem_lineage_iff (f : Forest) (hf : f.Rooted) (n a : ViewId) :
    a ∈ f.lineage n ↔ ∃ steps, f.ancestor? steps n = some a := by
  -- Induction on the number of the view: its parent has a smaller one.
  induction n using Nat.strong_induction_on with
  | _ n ih =>
      rw [lineage_eq f hf n, List.mem_cons]
      constructor
      · rintro (rfl | hmem)
        · exact ⟨0, rfl⟩
        · cases hparent : f.parent n with
          | none => simp [hparent] at hmem
          | some p =>
              rw [hparent, Option.elim_some, ih p (hf.parent_lt n p hparent)] at hmem
              rcases hmem with ⟨steps, hsteps⟩
              exact ⟨steps + 1, by rw [ancestor?, hparent, Option.bind_some, hsteps]⟩
      · rintro ⟨steps, hsteps⟩
        cases steps with
        | zero => exact Or.inl (Option.some.inj hsteps).symm
        | succ steps =>
            rcases Option.bind_eq_some_iff.mp hsteps with ⟨p, hparent, hrest⟩
            refine Or.inr ?_
            rw [hparent, Option.elim_some, ih p (hf.parent_lt n p hparent)]
            exact ⟨steps, hrest⟩

/-- A view is alive if it is new, or if it is some steps up from a view that is held. -/
theorem isAlive_iff (f : Forest) (hf : f.Rooted) (n : ViewId) :
    f.isAlive n = true ↔
      f.settled ≤ n ∨ ∃ h ∈ f.held, ∃ steps, f.ancestor? steps h = some n := by
  simp only [isAlive, Bool.or_eq_true, decide_eq_true_eq, List.any_eq_true, mem_lineage_iff f hf]

/-- So many steps up, the location is that many keys shorter. -/
theorem exists_ancestor? (f : Forest) (hf : f.Rooted) (steps : Nat) (n : ViewId) (v : View)
    (hv : f.view? n = some v) (h : steps ≤ v.location.length) :
    ∃ a w, f.ancestor? steps n = some a ∧ f.view? a = some w ∧ w.document = v.document ∧
      w.location = v.location.take (v.location.length - steps) := by
  -- Induction on the steps, where the first of them leads to the parent.
  induction steps generalizing n v with
  | zero => exact ⟨n, v, rfl, hv, rfl, by rw [Nat.sub_zero, List.take_length]⟩
  | succ steps ih =>
      rcases hf.cases n v hv with hroot | ⟨p, w, key, _, hw, hdocument, hlocation, _, hparent⟩
      · -- There is no way up from a root, but its location has no keys either.
        rw [hroot.location] at h
        exact absurd h (Nat.not_succ_le_zero steps)
      · have hlength : v.location.length = w.location.length + 1 := by
          rw [hlocation, List.length_append, List.length_singleton]
        rw [hlength, Nat.succ_le_succ_iff] at h
        rcases ih p w hw h with ⟨a, u, ha, hu, hdocument', hlocation'⟩
        refine ⟨a, u, ?_, hu, hdocument'.trans hdocument.symm, ?_⟩
        · rw [ancestor?, parent_of_view? f n v hv, hparent, Option.bind_some, ha]
        · rw [hlocation', hlength, Nat.add_sub_add_right, hlocation,
            List.take_append_of_le_length (Nat.sub_le _ _)]

/-- As many steps up as the location has keys there is a root of the same document. -/
theorem exists_root (f : Forest) (hf : f.Rooted) (n : ViewId) (v : View)
    (hv : f.view? n = some v) :
    ∃ r w, f.ancestor? v.location.length n = some r ∧ f.view? r = some w ∧ w.IsRoot ∧
      w.document = v.document := by
  rcases exists_ancestor? f hf v.location.length n v hv (Nat.le_refl _) with
    ⟨r, w, hr, hw, hdocument, hlocation⟩
  rw [Nat.sub_self, List.take_zero] at hlocation
  rcases hf.cases r w hw with hroot | ⟨p, u, key, _, _, _, hbelow, _⟩
  · exact ⟨r, w, hr, hw, hroot, hdocument⟩
  · rw [hlocation] at hbelow
    exact absurd hbelow.symm (by simp)

/-- Only a root looks at a whole document. -/
theorem location_ne_nil (f : Forest) (hf : f.Rooted) (n : ViewId) (v : View)
    (hv : f.view? n = some v) (h : f.parent n ≠ none) : v.location ≠ [] := by
  rcases hf.cases n v hv with hroot | ⟨p, w, key, _, _, _, hlocation, _⟩
  · exact absurd ((parent_of_view? f n v hv).trans hroot.parent) h
  · rw [hlocation]
    exact List.append_ne_nil_of_right_ne_nil _ (List.cons_ne_nil _ _)

/-! ## Absolute paths -/

/-- The keys on the way up are those of the location, the last one first. -/
theorem keys_lineage (f : Forest) (hf : f.Rooted) (n : ViewId) (v : View)
    (hv : f.view? n = some v) : ((f.lineage n).filterMap f.key).reverse = v.location := by
  -- Each view adds its key at the end of the location of its parent, just as reversing the way up
  -- does.
  induction n using Nat.strong_induction_on generalizing v with
  | _ n ih =>
      rw [lineage_eq f hf n, parent_of_view? f n v hv]
      rcases hf.cases n v hv with hroot | ⟨p, w, key, hlt, hw, _, hlocation, hkey, hparent⟩
      · rw [hroot.parent, List.filterMap_cons_none ((key_of_view? f n v hv).trans hroot.key),
          hroot.location]
        rfl
      · rw [hparent, List.filterMap_cons_some ((key_of_view? f n v hv).trans hkey),
          Option.elim_some, List.reverse_cons, ih p hlt w hw, hlocation]

/-- The absolute path is made of the keys of the location. -/
theorem absolutePath_eq (f : Forest) (hf : f.Rooted) (n : ViewId) (v : View)
    (hv : f.view? n = some v) (separator : String) :
    f.absolutePath n separator = Path.join (v.location.map Key.text) separator := by
  rw [absolutePath, keys_lineage f hf n v hv]

section Texts

variable (f : Forest) (n : ViewId) (separator : String) (c : Char)

/-- The texts of keys that mean nothing else, joined, make a path that is walked key by key. -/
theorem resolve_join_texts (hseparator : separator.toList = [c]) (hc : c ≠ '*')
    (keys : List Key) (hne : keys ≠ []) (hempty : keys ≠ [.name ""])
    (hkeys : ∀ key ∈ keys, key.Unambiguous c ∧ key.text ≠ Path.wildcard) :
    f.resolve n (Path.join (keys.map Key.text) separator) separator
      = f.walkSegments n (keys.map Key.text) := by
  have hsegments : (Path.parse (Path.join (keys.map Key.text) separator) separator).segments
      = keys.map Key.text := by
    refine Path.segments_join_of_not_mem hseparator _ (by simpa using hne) ?_
    exact List.forall_mem_map.mpr fun key hkey => (hkeys key hkey).1.whole
  have hwildcard : Path.wildcard ∉ keys.map Key.text := by
    intro hmem
    rcases List.mem_map.mp hmem with ⟨key, hkey, htext⟩
    exact (hkeys key hkey).2 htext
  rw [resolve_of_not_isWildcard, hsegments]
  · -- Only the empty name alone makes the empty path.
    intro htext
    rw [htext, Path.segments_empty] at hsegments
    have hback := Key.map_parse_map_text keys fun key hkey => (hkeys key hkey).1.canonical
    rw [← hsegments] at hback
    exact hempty hback.symm
  · intro htext
    have hseparator' : separator ≠ Path.wildcard := by
      rintro rfl
      exact hc (List.singleton_inj.mp hseparator).symm
    rw [htext, Path.segments_wildcard separator hseparator'] at hsegments
    exact hwildcard (by rw [← hsegments]; exact List.mem_singleton_self _)
  · rw [Path.isWildcard, hsegments, List.any_eq_false]
    intro s hs
    rw [decide_eq_true_eq]
    exact fun heq => hwildcard (heq ▸ hs)

/-- Walking along the texts of keys, from a view that shows its slot, leads to the location of the
    keys below it, if there is a slot. -/
theorem walkSegments_texts (hf : f.Linked) (d : DocumentId) (location : List Key) (u w : Value)
    (hshows : f.Shows n d location u) (key : Key) (keys : List Key)
    (hkeys : ∀ k ∈ key :: keys, k.Unambiguous c) (hslot : u.lookup (key :: keys) = some w) :
    ∃ m g, f.walkSegments n ((key :: keys).map Key.text) = (some m, g) ∧
      g.documents = f.documents ∧ g.Shows m d (location ++ key :: keys) w := by
  have hback := Key.map_parse_map_text (key :: keys) fun k hk => (hkeys k hk).canonical
  have hplain : ∀ s ∈ (key :: keys).map Key.text, (Segment.parse s).clause = none :=
    List.forall_mem_map.mpr fun k hk => (hkeys k hk).plain
  -- The first key is that of a child, so the view has it.
  have hkey : Key.parse key.text ∈ f.keys n := by
    rw [(hkeys key List.mem_cons_self).canonical, mem_keys_of_shows f n d location u hshows]
    rcases Option.bind_eq_some_iff.mp hslot with ⟨x, hx, _⟩
    rw [hx]
    rfl
  rcases hshows.view with ⟨v, hv, rfl, rfl⟩
  have hslot' : f.slotAt? v.document
      (v.location ++ ((key :: keys).map Key.text).map Key.parse) = some w := by
    rw [hback, slotAt?_append, hshows.slot, Option.bind_some, hslot]
  have hwalk := walkSegments_of_slot key.text (keys.map Key.text) f n v w hf hv hplain hkey hslot'
  rw [← List.map_cons, hback] at hwalk
  exact hwalk

end Texts

/-- In a reachable forest the way up from a view ends in a root of its document, as many steps up
    as its location has keys, and the absolute path is the texts of these keys, joined. If the
    view is no root and its slot exists, and if the texts of the keys mean nothing else in a path
    with this separator, the absolute path leads from a new root of the document to a view of
    the same location that shows the same value. -/
theorem absolutePath_leads_back {f : Forest} (hf : f.Reachable) (m : ViewId) (v : View)
    (hv : f.view? m = some v) :
    (∃ r, f.ancestor? v.location.length m = some r ∧ f.parent r = none ∧
      ∃ w, f.view? r = some w ∧ w.location = [] ∧ w.document = v.document) ∧
    (∀ separator, f.absolutePath m separator = Path.join (v.location.map Key.text) separator) ∧
    ∀ separator c, f.parent m ≠ none → (f.slot? m).isSome → separator.toList = [c] → c ≠ '*' →
      v.location ≠ [.name ""] →
      (∀ key ∈ v.location, key.Unambiguous c ∧ key.text ≠ Path.wildcard) →
      ∃ m' g, (f.root v.document).2.resolve (f.root v.document).1 (f.absolutePath m separator)
          separator = (some m', g) ∧
        g.documents = f.documents ∧ g.Shows m' v.document v.location (f.value m) := by
  refine ⟨?_, absolutePath_eq f hf.rooted m v hv, ?_⟩
  · rcases exists_root f hf.rooted m v hv with ⟨r, w, hr, hw, hroot, hdocument⟩
    exact ⟨r, hr, by rw [parent_of_view? f r w hw, hroot.parent], w, hw, hroot.location, hdocument⟩
  · intro separator c hparent hsome hseparator hc hempty hkeys
    rcases Option.isSome_iff_exists.mp hsome with ⟨u, hu⟩
    rw [absolutePath_eq f hf.rooted m v hv, value_eq_of_slot? f m u hu]
    rw [slot?_of_view? f m v hv] at hu
    -- The slot is one of a document, which the new root shows.
    have hdocument := hu
    rw [slotAt?, Option.bind_eq_some_iff] at hdocument
    rcases hdocument with ⟨whole, hwhole, hlookup⟩
    have hshows := shows_root f v.document whole (by rw [slotAt?, hwhole]; rfl)
    have hlinked : (f.root v.document).2.Linked := linked_makeView f hf.linked _ _ _ _ _
    have hne := location_ne_nil f hf.rooted m v hv hparent
    rw [resolve_join_texts _ _ separator c hseparator hc v.location hne hempty hkeys]
    rcases List.exists_cons_of_ne_nil hne with ⟨key, keys, hlocation⟩
    rw [hlocation] at hkeys hlookup ⊢
    exact walkSegments_texts _ _ c hlinked _ [] whole u hshows key keys
      (fun k hk => (hkeys k hk).1) hlookup

/-- The view 4 is below the view 3 for `a`, so its path leads through `a`. It was not there yet when
    the view 1 for `a` was loaded. -/
theorem absolutePath_through_alias :
    let f := aliased.run [.navigate 3 (.child (.index 0))]
    f.absolutePath 4 "/" = "a/0" ∧ f.ancestor? 2 4 = some 2 ∧ f.keys 1 = [] ∧
      ∃ m g, (f.root 0).2.resolve (f.root 0).1 "a/0" "/" = (some m, g) ∧ g.value m = .int 7 := by
  intro f
  have hf : f.Reachable := reachable_aliased.run _
  have hv : f.view? 4 = some ⟨0, [.name "a", .index 0], some (.index 0), some 3, .leaf⟩ := rfl
  rcases absolutePath_leads_back hf 4 _ hv with ⟨⟨r, hr, _⟩, hpath, hback⟩
  have hpath' : f.absolutePath 4 "/" = "a/0" := (hpath "/").trans (by decide)
  rcases hback "/" '/' (by decide) rfl rfl (by decide) (by decide) (by decide) with
    ⟨m, g, hresolve, _, hshows⟩
  rw [hpath'] at hresolve
  exact ⟨hpath', rfl, rfl, m, g, hresolve, hshows.value⟩

end Forest

end DocTree
