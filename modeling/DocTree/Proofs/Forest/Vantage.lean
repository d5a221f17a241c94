import Mathlib
import DocTree.Proofs.Vantage
import DocTree.Proofs.Forest.Sound

/-!
# Queries Find What Can Be Seen

Every query through a view finds what can be seen from it as a vantage, whatever views
have been handed out below it and whatever those have seen. The proof follows the query.
A view *stands* at a place if it looks there and sees what is there to be seen; from a
view that stands somewhere, fetching a child finds a view that stands at the place of the
child, and so on up to whole paths.

What keeps this going is that a query never disturbs its own ground. A fetch spares the
view it starts from, a document that is added changes no other, and so both the views
that stand somewhere and the vantage of the query stay as they are.

## Main definitions

* `Forest.vantage`: what can be seen from a view.
* `Forest.Stands`: a view that sees what is there to be seen at a place.
* `Forest.Finds`: a query that finds the place that it should.

## Theorems

* `vantage_spares`, `vantage_walk`: what keeps the vantage of a view.
* `finds_child`, `finds_select`, `finds_get`, `finds_walkSegments`: queries without wildcards.
* `flatten_eq`, `choices_eq`: what wildcards stand for.
* `fronts_get`, `fronts_flatten`: how the frontier of a query goes on.
* `survivors_eq`: queries with wildcards.
-/

namespace DocTree

namespace Forest

/-- What can be seen from a view. -/
def vantage (f : Forest) (n : ViewId) : Vantage :=
  ⟨f.value n, f.keys n, f.isContainer n⟩

/-! ## What keeps a vantage -/

theorem isContainer_of_extends (f g : Forest) (h : f.Extends g) (n : ViewId) (v : View)
    (hv : f.view? n = some v) : g.isContainer n = f.isContainer n := by
  rcases h n v hv with ⟨w, hw, hagrees⟩
  rw [isContainer_of_view? f n v hv, isContainer_of_view? g n w hw, hagrees.kind]

/-- Looking keeps the vantage of a view whose snapshot is kept. -/
theorem vantage_looks (f g : Forest) (hf : f.Sound) (h : Looks f g) (n : ViewId) (v : View)
    (hv : f.view? n = some v) (hs : g.snapshot? n = f.snapshot? n) :
    g.vantage n = f.vantage n := by
  rw [vantage, vantage, value_looks f g h hf n v hv,
    isContainer_of_extends f g (extends_looks f g h) n v hv, keys, keys, hs]

theorem vantage_spares (f g : Forest) (hf : f.Sound) (d : DocumentId) (depth : Nat)
    (h : f.Spares g d depth) (n : ViewId) (v : View) (hv : f.view? n = some v)
    (hdepth : v.document = d → v.location.length ≤ depth) : g.vantage n = f.vantage n :=
  vantage_looks f g hf (looks_of_glances f g h.glances) n v hv (h.snapshots n v hv hdepth)

theorem vantage_walk (f : Forest) (hf : f.Sound) (u : Value) (n : ViewId) (v : View)
    (hv : f.view? n = some v) : (f.walk u).2.vantage n = f.vantage n := by
  refine vantage_looks f _ hf (looks_walk f u) n v hv ?_
  rw [walk, root, snapshot?_makeView, if_neg (Nat.ne_of_lt (lt_of_view? f n v hv))]
  rfl

/-! ## Standing at a place -/

/-- Seen from `t`, which is at this location of a document, the view `m` is at a place, and sees
    what is there to be seen. -/
structure Stands (f : Forest) (t : Vantage) (d : DocumentId) (location : List Key) (m : ViewId)
    (place : List Key) : Prop where
  view : ∃ w, f.view? m = some w ∧ w.document = d ∧ w.location = location ++ place
  slot : (t.value.lookup place).isSome
  vantage : f.vantage m = t.below place

/-- A query comes to a view at the place that it should come to, or to none if there is none. -/
def Finds (t : Vantage) (d : DocumentId) (location : List Key) (r : Option ViewId × Forest)
    (place : Option (List Key)) : Prop :=
  Option.Rel (fun m p => r.2.Stands t d location m p) r.1 place

theorem stands_self (f : Forest) (n : ViewId) (v : View) (hv : f.view? n = some v) :
    f.Stands (f.vantage n) v.document v.location n [] :=
  ⟨⟨v, hv, rfl, (List.append_nil _).symm⟩, rfl, rfl⟩

section

variable {t : Vantage} {d : DocumentId} {location : List Key}

/-- A view still stands at its place if it is still the same view and sees the same. -/
theorem Stands.mono {f g : Forest} {m : ViewId} {place : List Key}
    (h : f.Stands t d location m place) (hext : f.Extends g) (hv : g.vantage m = f.vantage m) :
    g.Stands t d location m place := by
  rcases h.view with ⟨w, hw, hdocument, hlocation⟩
  rcases hext m w hw with ⟨w', hw', hagrees⟩
  refine ⟨⟨w', hw', ?_, ?_⟩, h.slot, hv.trans h.vantage⟩
  · rw [hagrees.document, hdocument]
  · rw [hagrees.location, hlocation]

/-- A view is not disturbed by what goes on in another document, or far enough down in its own. -/
theorem Stands.spares_of {f g : Forest} (hf : f.Sound) {m : ViewId} {place : List Key}
    (h : f.Stands t d location m place) {d' : DocumentId} {depth : Nat} (hg : f.Spares g d' depth)
    (hdepth : d = d' → location.length + place.length ≤ depth) :
    g.Stands t d location m place := by
  rcases h.view with ⟨w, hw, hdocument, hlocation⟩
  -- The view may have been given children meanwhile, but its snapshot is spared.
  refine h.mono (extends_looks f g (looks_of_glances f g hg.glances))
    (vantage_spares f g hf d' depth hg m w hw fun hd => ?_)
  rw [hlocation, List.length_append]
  exact hdepth (hdocument.symm.trans hd)

theorem Stands.spares {f g : Forest} (hf : f.Sound) {m : ViewId} {place : List Key}
    (h : f.Stands t d location m place) {depth : Nat} (hg : f.Spares g d depth)
    (hdepth : location.length + place.length ≤ depth) : g.Stands t d location m place :=
  h.spares_of hf hg fun _ => hdepth

/-- The slot of a child, seen from the vantage, is the slot that the view looks for. -/
theorem Stands.lookup_concat {f : Forest} {m : ViewId} {place : List Key}
    (h : f.Stands t d location m place) (key : Key) :
    t.value.lookup (place ++ [key]) = f.slotAt? d (location ++ place ++ [key]) := by
  rcases h.view with ⟨w, hw, rfl, hlocation⟩
  rcases Option.isSome_iff_exists.mp h.slot with ⟨u, hu⟩
  -- The view reads the slot at its place, so both ways lead through the same value.
  have hvalue : f.value m = u := by
    have hv := congrArg Vantage.value h.vantage
    rwa [t.value_below, hu] at hv
  rw [Value.lookup_append, hu, Option.bind_some, ← hlocation, ← lookup_value f m w hw, hvalue]

/-! ## Children -/

/-- A fetch finds the child whose slot is to be seen, or nothing if there is no such slot. -/
theorem finds_child (f : Forest) (hf : f.Sound) (m : ViewId) (place : List Key)
    (h : f.Stands t d location m place) (key : Key) :
    Finds t d location (f.child m key) (t.child? place key) := by
  have hkeys : f.keys m = (t.below place).keys := congrArg Vantage.keys h.vantage
  have hlookup := h.lookup_concat key
  rcases h.view with ⟨w, hw, rfl, hlocation⟩
  rw [← hlocation] at hlookup
  by_cases hfound : key ∈ f.keys m ∧ (t.value.lookup (place ++ [key])).isSome
  · -- The key is seen and its slot exists, so there is a place, and a child to be fetched.
    have hplace : t.child? place key = some (place ++ [key]) :=
      (t.child?_eq_some_iff place key _).mpr ⟨by rw [← hkeys]; exact hfound.1, hfound.2, rfl⟩
    rcases Option.isSome_iff_exists.mp hfound.2 with ⟨u, hu⟩
    rcases shows_child f hf.linked m w key u hw hfound.1 (by rw [← hlookup, hu]) with
      ⟨c, g, hchild, _, hshows⟩
    rw [Finds, hplace, hchild]
    refine .some ⟨?_, hfound.2, ?_⟩
    · rcases hshows.view with ⟨x, hx, hdocument, hx'⟩
      exact ⟨x, hx, hdocument, by rw [hx', hlocation, List.append_assoc]⟩
    · -- The child shows its slot, and that is what is to be seen at its place.
      have hbelow : t.below (place ++ [key]) = Vantage.ofValue u := by
        rw [Vantage.below, if_neg (by simp), hu, Option.getD_some]
      rw [hbelow, vantage, hshows.value, hshows.keys, hshows.kind, Vantage.ofValue]
  · have hplace : t.child? place key = none := by
      rw [Vantage.child?, ← hkeys, if_neg hfound]
    rw [Finds, hplace, child_of_none f m key]
    · exact .none
    · -- The view is the one that stands at the place, so there is nothing to fetch.
      intro w' hw' hkey
      rw [hw, Option.some.injEq] at hw'
      rw [← hw', ← hlookup, ← Option.not_isSome_iff_eq_none]
      exact fun hsome => hfound ⟨hkey, hsome⟩

/-- So does a fetch by position, since the view sees the same keys. -/
theorem finds_childAt (f : Forest) (hf : f.Sound) (m : ViewId) (place : List Key)
    (h : f.Stands t d location m place) (i : Nat) :
    Finds t d location (f.childAt m i) (t.childAt? place i) := by
  have hkeys : f.keys m = (t.below place).keys := congrArg Vantage.keys h.vantage
  rw [childAt, Vantage.childAt?, hkeys]
  cases (t.below place).keys[i]? with
  | none => exact .none
  | some key => exact finds_child f hf m place h key

/-- The last child is the one at the last position. -/
theorem finds_last (f : Forest) (hf : f.Sound) (m : ViewId) (place : List Key)
    (h : f.Stands t d location m place) :
    Finds t d location (f.last m)
      (t.childAt? place ((t.below place).keys.length - 1)) := by
  have hchild := finds_childAt f hf m place h ((t.below place).keys.length - 1)
  have hkeys : f.keys m = (t.below place).keys := congrArg Vantage.keys h.vantage
  rw [last]
  cases hs : f.snapshot? m with
  | none =>
      -- A leaf has no keys to be seen.
      rw [keys, hs] at hkeys
      rw [Vantage.childAt?, ← hkeys]
      exact .none
  | some s =>
      rw [keys, hs, Option.map_some, Option.getD_some] at hkeys
      -- The snapshot knows the position of its last key.
      rw [Option.bind_some, hf.aligned m s hs, hkeys]
      split
      · rename_i hlast
        split at hlast
        · exact absurd hlast (by simp)
        · rw [← Option.some.inj hlast]
          exact hchild
      · rename_i hlast
        split at hlast
        · rename_i hempty
          rw [Vantage.childAt?, List.isEmpty_iff.mp hempty]
          exact .none
        · exact absurd hlast (by simp)

/-- A selector is taken relative to a child, and so its parent is the view that the child was
    fetched from. -/
theorem finds_select (f : Forest) (hf : f.Sound) (m c : ViewId) (place : List Key) (key : Key)
    (hm : f.Stands t d location m place) (hc : f.Stands t d location c (place ++ [key]))
    (hparent : f.parent c = some m) (s : Selector) :
    Finds t d location (f.select c s) (t.select? (place ++ [key]) s) := by
  have hkind : f.isContainer c = (t.below (place ++ [key])).isContainer :=
    congrArg Vantage.isContainer hc.vantage
  simp only [select, Vantage.select?, hkind]
  split
  · cases s with
    | parent =>
        dsimp only
        -- One key less is the place of the view that the child was fetched from.
        rw [hparent, List.dropLast_concat]
        exact .some hm
    | nthChild i =>
        dsimp only
        rw [nthChild]
        split
        · exact finds_childAt f hf c _ hc _
        · exact .none
    | first => exact finds_childAt f hf c _ hc 0
    | last => exact finds_last f hf c _ hc
  · exact .none

/-! ## Paths -/

theorem spares_childAt (f : Forest) (hf : f.Linked) (n : ViewId) (v : View) (i : Nat)
    (hv : f.view? n = some v) :
    f.Spares (f.childAt n i).2 v.document v.location.length := by
  unfold childAt
  split
  · exact spares_child f hf n v _ hv
  · exact .refl f _ _

theorem spares_select (f : Forest) (hf : f.Linked) (n : ViewId) (v : View) (s : Selector)
    (hv : f.view? n = some v) :
    f.Spares (f.select n s).2 v.document v.location.length := by
  unfold select
  split
  · cases s with
    | parent => exact .refl f _ _
    | nthChild i =>
        dsimp only [nthChild]
        split
        · exact spares_childAt f hf n v _ hv
        · exact .refl f _ _
    | first => exact spares_childAt f hf n v 0 hv
    | last =>
        dsimp only [last]
        split
        · exact spares_childAt f hf n v _ hv
        · exact .refl f _ _
  · exact .refl f _ _

/-- A segment loads nothing at the depth of the view that it is asked of, or above. -/
theorem spares_get (f : Forest) (hf : f.Linked) (n : ViewId) (v : View) (raw : String)
    (hv : f.view? n = some v) :
    f.Spares (f.get n raw).2 v.document v.location.length := by
  have hspares := spares_child f hf n v (Segment.parse raw).key hv
  simp only [get]
  split
  · rename_i c g hchild
    rw [hchild] at hspares
    split
    · -- The selector starts from the child, which is deeper.
      have hlinked := linked_looks f g (looks_of_glances f g hspares.glances) hf
      rcases isChild_of_child f hf n v _ c g hv hchild with ⟨w, hw, hdocument, hlocation, _, _⟩
      refine hspares.trans ?_
      rw [← hdocument]
      refine (spares_select g hlinked c w _ hw).mono ?_
      rw [hlocation, List.length_append]
      exact Nat.le_add_right _ _
    · exact hspares
  · rename_i g hchild
    rw [hchild] at hspares
    exact hspares

/-- A segment finds what it names, for its key and then for its clause. -/
theorem finds_get (f : Forest) (hf : f.Sound) (m : ViewId) (place : List Key)
    (h : f.Stands t d location m place) (raw : String) :
    Finds t d location (f.get m raw) (t.get? place raw) := by
  have hchild := finds_child f hf m place h (Segment.parse raw).key
  rcases h.view with ⟨w, hw, hdocument, hlocation⟩
  have hspares := spares_child f hf.linked m w (Segment.parse raw).key hw
  rw [get, Vantage.get?]
  cases hfetch : f.child m (Segment.parse raw).key with
  | mk r g =>
      rw [hfetch] at hchild hspares
      have hglooks := looks_of_glances f g hspares.glances
      -- The place decides whether a child was found.
      cases hplace : t.child? place (Segment.parse raw).key with
      | none =>
          rw [hplace] at hchild
          cases hchild
          exact .none
      | some q =>
          rw [hplace] at hchild
          cases hchild with
          | some hc =>
              rename_i c
              dsimp only [Option.bind_some]
              cases (Segment.parse raw).selector with
              | none => exact .some hc
              | some s =>
                  rw [hdocument, hlocation, List.length_append] at hspares
                  rcases isChild_of_child f hf.linked m w _ c g hw hfetch with
                    ⟨x, hx, _, _, _, hparent⟩
                  rcases (t.child?_eq_some_iff place _ q).mp hplace with ⟨_, _, rfl⟩
                  -- Fetching the child was too deep to disturb its parent, which the clause may
                  -- lead back to.
                  refine finds_select g (sound_looks f g hglooks hf) m c place _
                    (h.spares hf hspares (Nat.le_refl _)) hc ?_ s
                  rw [parent, hx, Option.bind_some, hparent]

/-- A walk finds the place that it leads to, and spares all that lies no deeper than its start. -/
theorem finds_walkSegments (f : Forest) (hf : f.Sound) (m : ViewId) (place : List Key)
    (h : f.Stands t d location m place) (segments : List String) :
    Finds t d location (f.walkSegments m segments) (t.walk? place segments) ∧
      f.Spares (f.walkSegments m segments).2 d location.length := by
  -- On the segments, for any view at a place to start from.
  induction segments generalizing f m place with
  | nil => exact ⟨.none, .refl f d _⟩
  | cons raw rest ih =>
      have hget := finds_get f hf m place h raw
      have hspares : f.Spares (f.get m raw).2 d location.length := by
        rcases h.view with ⟨w, hw, rfl, hlocation⟩
        refine (spares_get f hf.linked m w raw hw).mono ?_
        rw [hlocation, List.length_append]
        exact Nat.le_add_right _ _
      cases rest with
      | nil => exact ⟨hget, hspares⟩
      | cons next rest =>
          rw [walkSegments, Vantage.walk?]
          · cases hfetch : f.get m raw with
            | mk r g =>
                rw [hfetch] at hget hspares
                cases hplace : t.get? place raw with
                | none =>
                    rw [hplace] at hget
                    cases hget
                    exact ⟨.none, hspares⟩
                | some q =>
                    rw [hplace] at hget
                    cases hget with
                    | some hc =>
                        rename_i c
                        -- The walk goes on below containers only, and the view that was found is of
                        -- the kind to be seen.
                        have hkind : g.isContainer c = (t.below q).isContainer :=
                          congrArg Vantage.isContainer hc.vantage
                        have hsound := sound_looks f g (looks_of_glances f g hspares.glances) hf
                        dsimp only [Option.bind_some]
                        rw [hkind]
                        split
                        · rcases ih g hsound c q hc with ⟨hfinds, hspares'⟩
                          exact ⟨hfinds, hspares.trans hspares'⟩
                        · exact ⟨.none, hspares⟩
          · exact List.cons_ne_nil _ _
          · exact List.cons_ne_nil _ _

/-! ## Wildcards -/

/-- A loop of queries finds what each of them would. The views that are found are read at the end,
    and still see what they saw when they were found. -/
theorem thread_finds {α : Type} (t : Vantage) (d : DocumentId) (location : List Key)
    (query : Forest → α → Option ViewId × Forest)
    (place? : α → Option (List Key)) (depth : Nat) (f : Forest) (hf : f.Sound) (as : List α)
    (hquery : ∀ g, f.Spares g d depth → ∀ a,
      Finds t d location (query g a) (place? a) ∧ g.Spares (query g a).2 d depth) :
    let r := thread (fun g a => ((query g a).1.map (a, ·), (query g a).2)) f as
    f.Spares r.2 d depth ∧
      (r.1.filterMap id).map (fun e => (e.1, r.2.value e.2))
        = as.filterMap fun a => (place? a).map fun place => (a, (t.below place).value) := by
  -- On the turns. The queries may load views, but none at the depth of those already found.
  induction as generalizing f with
  | nil => exact ⟨.refl f d depth, rfl⟩
  | cons a as ih =>
      rcases hquery f (.refl f d depth) a with ⟨hfinds, hspares⟩
      have hsound := sound_looks f _ (looks_of_glances f _ hspares.glances) hf
      rcases ih (query f a).2 hsound fun g hg => hquery g (hspares.trans hg) with ⟨hrest, hvalues⟩
      refine ⟨hspares.trans hrest, ?_⟩
      simp only [thread]
      rw [Finds] at hfinds
      cases hplace : place? a with
      | none =>
          rw [hplace] at hfinds
          cases hfirst : (query f a).1 with
          | some c => rw [hfirst] at hfinds; cases hfinds
          | none =>
              rw [List.filterMap_cons_none (by rw [Option.map_none]; rfl),
                List.filterMap_cons_none (by rw [hplace]; rfl)]
              exact hvalues
      | some place =>
          rw [hplace] at hfinds
          cases hfirst : (query f a).1 with
          | none => rw [hfirst] at hfinds; cases hfinds
          | some c =>
              rw [hfirst] at hfinds
              cases hfinds with
              | some hc =>
                  rcases hc.view with ⟨w, hw, _, _⟩
                  -- What was found first is read at the end, after all other turns.
                  have hvalue := value_looks _ _ (looks_of_glances _ _ hrest.glances) hsound c w hw
                  rw [List.filterMap_cons_some (by rw [Option.map_some]; rfl),
                    List.filterMap_cons_some (by rw [hplace, Option.map_some]), List.map_cons]
                  refine congrArg₂ List.cons ?_ hvalues
                  rw [hvalue, show (query f a).2.value c = (t.below place).value from
                    congrArg Vantage.value hc.vantage]

/-- A level is flattened from the children that are to be seen, each read as it is. -/
theorem flatten_eq (f : Forest) (hf : f.Sound) (m : ViewId) (place : List Key)
    (h : f.Stands t d location m place) :
    (f.flatten m).1 = t.flatten place ∧
      f.Spares (f.flatten m).2 d (location.length + place.length) := by
  have hkeys : f.keys m = (t.below place).keys := congrArg Vantage.keys h.vantage
  -- The children are fetched in a loop, and the view stays where it is through all its turns.
  have hthread := thread_finds t d location
    (fun g key => g.child m key) (fun key => t.child? place key)
    (location.length + place.length) f hf (f.keys m) fun g hg key => by
      have hsound := sound_looks f g (looks_of_glances f g hg.glances) hf
      have hstands := h.spares hf hg (Nat.le_refl _)
      refine ⟨finds_child g hsound m place hstands key, ?_⟩
      rcases hstands.view with ⟨w, hw, rfl, hlocation⟩
      have hspares := spares_child g hsound.linked m w key hw
      rwa [hlocation, List.length_append] at hspares
  refine ⟨?_, hthread.1⟩
  -- Of what the loop has found only the values go into the level.
  have hvalues : ((f.items m).1.map fun e => (f.items m).2.value e.2)
      = (t.children place).map fun c => (t.below c).value := by
    calc ((f.items m).1.map fun e => (f.items m).2.value e.2)
        = ((f.keys m).filterMap fun key => (t.child? place key).map fun c =>
            (key, (t.below c).value)).map Prod.snd := by
          rw [← hthread.2, List.map_map]
          rfl
      _ = (t.children place).map fun c => (t.below c).value := by
          rw [Vantage.children, List.map_filterMap, List.map_filterMap, hkeys]
          simp only [Option.map_map]
          rfl
  exact congrArg (List.foldl flattenInto []) hvalues

/-- The view of a new document sees the document as it is. -/
theorem stands_walk (f : Forest) (u : Value) :
    (f.walk u).2.Stands (Vantage.ofValue u) f.documents.size [] (f.walk u).1 [] := by
  have hshows : (f.walk u).2.Shows (f.walk u).1 f.documents.size [] u :=
    shows_root { f with documents := f.documents.push u } _ u (by simp [slotAt?, Value.lookup])
  refine ⟨hshows.view, rfl, ?_⟩
  rw [vantage, hshows.value, hshows.keys, hshows.kind]
  rfl

/-- The frontier of a query from `n`, which is at this location of a document, is where it should
    be. Going on from there does not disturb the view `n`. -/
def Fronts (f : Forest) (d : DocumentId) (location : List Key) (frontier : Option ViewId)
    (e : Option (Vantage × List Key)) : Prop :=
  Option.Rel (fun m e => ∃ d' location', f.Stands e.1 d' location' m e.2 ∧
    (d = d' → location.length ≤ location'.length)) frontier e

theorem Finds.fronts {t' : Vantage} {d' : DocumentId} {location' : List Key}
    {r : Option ViewId × Forest} {place : Option (List Key)} (h : Finds t' d' location' r place)
    (hdepth : d = d' → location.length ≤ location'.length) :
    r.2.Fronts d location r.1 (place.map fun c => (t', c)) := by
  rcases r with ⟨r, g⟩
  cases h with
  | none => exact .none
  | some hc => exact .some ⟨d', location', hc, hdepth⟩

/-- A name leads the frontier on, if it leads anywhere. -/
theorem fronts_get (f : Forest) (hf : f.Sound) (n : ViewId) (hn : f.Stands t d location n [])
    (m : ViewId) (e : Vantage × List Key) (h : f.Fronts d location (some m) (some e))
    (raw : String) :
    (f.get m raw).2.Sound ∧ (f.get m raw).2.Stands t d location n [] ∧
      (f.get m raw).2.Fronts d location (f.get m raw).1
        ((e.1.get? e.2 raw).map fun c => (e.1, c)) := by
  cases h with
  | some hm =>
      rcases hm with ⟨d', location', hm, hdepth⟩
      rcases hm.view with ⟨w, hw, rfl, hlocation⟩
      have hspares := spares_get f hf.linked m w raw hw
      -- The frontier is at the depth of the view or deeper, or in another document, so the view is
      -- spared.
      refine ⟨sound_looks f _ (looks_of_glances f _ hspares.glances) hf,
        hn.spares_of hf hspares fun hd => ?_, (finds_get f hf m e.2 hm raw).fronts hdepth⟩
      rw [hlocation, List.length_append]
      exact (hdepth hd).trans (Nat.le_add_right _ _)

/-- A wildcard at a container leads the frontier on to a new document with all that the wildcard
    may stand for. -/
theorem fronts_flatten (f : Forest) (hf : f.Sound) (n : ViewId)
    (hn : f.Stands t d location n []) (m : ViewId) (e : Vantage × List Key)
    (h : f.Fronts d location (some m) (some e)) :
    (f.flatten m).1 = e.1.flatten e.2 ∧
      ((f.flatten m).2.walk (.container (f.flatten m).1)).2.Sound ∧
      ((f.flatten m).2.walk (.container (f.flatten m).1)).2.Stands t d location n [] ∧
      ((f.flatten m).2.walk (.container (f.flatten m).1)).2.Fronts d location
        (some ((f.flatten m).2.walk (.container (f.flatten m).1)).1)
        (some (Vantage.ofValue (.container (e.1.flatten e.2)), [])) := by
  cases h with
  | some hm =>
      rcases hm with ⟨d', location', hm, hdepth⟩
      rcases flatten_eq f hf m e.2 hm with ⟨hlevel, hspares⟩
      have hsound := sound_looks f _ (looks_of_glances f _ hspares.glances) hf
      have hn' := hn.spares_of hf hspares fun hd => (hdepth hd).trans (Nat.le_add_right _ _)
      rcases hn'.view with ⟨v', hv', hdocument, _⟩
      have hwalk := looks_walk (f.flatten m).2 (.container (f.flatten m).1)
      -- The next frontier is a document of its own.
      have hnew : d ≠ (f.flatten m).2.documents.size := by
        rw [← hdocument]
        exact Nat.ne_of_lt (hsound.grounded n v' hv')
      refine ⟨hlevel, sound_looks _ _ hwalk hsound,
        hn'.mono (extends_looks _ _ hwalk) (vantage_walk _ hsound _ n v' hv'),
        .some ⟨(f.flatten m).2.documents.size, [], ?_, fun hd => absurd hd hnew⟩⟩
      rw [← hlevel]
      exact stands_walk _ _

/-- The choices for a path are those that can be seen, and finding them keeps the view that they
    are found from. -/
theorem choices_eq (f : Forest) (hf : f.Sound) (n : ViewId) (hn : f.Stands t d location n [])
    (frontier : Option ViewId) (e : Option (Vantage × List Key))
    (h : f.Fronts d location frontier e) (segments : List String) :
    (f.choices frontier segments).1 = Vantage.choices e segments ∧
      (f.choices frontier segments).2.Stands t d location n [] := by
  -- On the segments, for any frontier that is where it should be.
  induction segments generalizing f frontier e with
  | nil => exact ⟨rfl, hn⟩
  | cons raw rest ih =>
      simp only [choices, Vantage.choices]
      cases h with
      | none =>
          -- Without a frontier nothing more is found.
          rcases ih f hf hn none none .none with ⟨hrest, hstands⟩
          split
          · exact ⟨congrArg _ hrest, hstands⟩
          · exact ⟨congrArg _ hrest, hstands⟩
      | @some m e hm =>
          have hfront : f.Fronts d location (some m) (some e) := .some hm
          rcases hm with ⟨d', location', hm, _⟩
          have hkind : f.isContainer m = (e.1.below e.2).isContainer :=
            congrArg Vantage.isContainer hm.vantage
          have hkeys : f.keys m = (e.1.below e.2).keys := congrArg Vantage.keys hm.vantage
          split
          · cases hcontainer : (e.1.below e.2).isContainer with
            | true =>
                rw [Option.filter_some_pos (hkind.trans hcontainer),
                  show (some e).filter (fun e : Vantage × List Key =>
                    (e.1.below e.2).isContainer) = some e from Option.filter_some_pos hcontainer]
                -- The wildcard stands for the keys that are seen, and the frontier moves on to
                -- their level.
                rcases fronts_flatten f hf n hn m e hfront with ⟨_, hsound, hn', hnext⟩
                rcases ih _ hsound hn' _ _ hnext with ⟨hrest, hstands⟩
                exact ⟨congrArg₂ List.cons (congrArg _ hkeys) hrest, hstands⟩
            | false =>
                rw [Option.filter_some_neg (by simp [hkind, hcontainer]),
                  show (some e).filter (fun e : Vantage × List Key =>
                    (e.1.below e.2).isContainer) = none from
                      Option.filter_some_neg (by simp [hcontainer])]
                -- At a leaf the wildcard stands for nothing, and the frontier stays.
                rcases ih f hf hn _ _ hfront with ⟨hrest, hstands⟩
                exact ⟨congrArg _ hrest, hstands⟩
          · rcases fronts_get f hf n hn m e hfront raw with ⟨hsound, hn', hnext⟩
            rcases ih _ hsound hn' _ _ hnext with ⟨hrest, hstands⟩
            exact ⟨congrArg _ hrest, hstands⟩

/-- The candidates are those that can be seen. -/
theorem candidates_eq (f : Forest) (hf : f.Sound) (n : ViewId)
    (hn : f.Stands t d location n []) (path : Path) :
    (f.candidates n path).1 = t.candidates path ∧
      (f.candidates n path).2.Stands t d location n [] := by
  rcases choices_eq f hf n hn (some n) (some (t, []))
    (.some ⟨d, location, hn, fun _ => Nat.le_refl _⟩) path.segments with ⟨hchoices, hstands⟩
  refine ⟨?_, hstands⟩
  rw [Vantage.candidates, ← hchoices]
  rfl

/-- A candidate finds the place that it leads to. -/
theorem finds_tryCandidate (f : Forest) (hf : f.Sound) (n : ViewId)
    (hn : f.Stands t d location n []) (path : Path) (candidate : String) :
    Finds t d location (f.tryCandidate n path candidate) (t.attempt? path candidate) ∧
      f.Spares (f.tryCandidate n path candidate).2 d location.length := by
  simp only [tryCandidate, Vantage.attempt?]
  split
  · exact finds_walkSegments f hf n [] hn _
  · exact ⟨.none, .refl f d _⟩

/-- A query with wildcards finds the survivors that can be seen, and keeps the view that it starts
    from. -/
theorem survivors_eq (f : Forest) (hf : f.Sound) (n : ViewId)
    (hn : f.Stands t d location n []) (path : Path) :
    ((f.survivors n path).1.map fun e => (e.1, (f.survivors n path).2.value e.2))
        = t.survivors path ∧
      (f.survivors n path).2.Stands t d location n [] := by
  rcases candidates_eq f hf n hn path with ⟨hcandidates, hstands⟩
  have hlooks : Looks f (f.candidates n path).2 := looks_choices f (some n) path.segments
  have hsound := sound_looks f _ hlooks hf
  -- Each candidate is tried from the view, which has been kept in its place.
  rcases thread_finds t d location
    (fun g candidate => g.tryCandidate n path candidate) (t.attempt? path) location.length
    (f.candidates n path).2 hsound (f.candidates n path).1 (fun g hg candidate => by
      have hsound' := sound_looks _ g (looks_of_glances _ g hg.glances) hsound
      exact finds_tryCandidate g hsound' n (hstands.spares hsound hg (Nat.le_refl _)) path
        candidate) with ⟨hspares, hvalues⟩
  rw [Vantage.survivors, ← hcandidates]
  exact ⟨hvalues, hstands.spares hsound hspares (Nat.le_refl _)⟩

end

end Forest

end DocTree
