import Mathlib
import DocTree.Proofs.Collect
import DocTree.Proofs.Decoding
import DocTree.Proofs.Fit
import DocTree.Proofs.Normal

/-!
# Two Ways to Read JSON

A JSON text can be read as it stands, or be brought into normal form first: only the last
member of each name, and members in the order of their names. The two readings agree.
Keys are told apart by their texts, so members that share a key share a name, and where
one reading overwrites an entry the other has dropped a member before. What is left of the
difference is the order of entries that come from members. Items keep their order.

## Main definitions

* `Tree.member?`: the last member of a name.
* `Value.Agree`: two values of a tree differ in the order of members alone.

## Theorems

* `lookup_insertMember`, `lookup_normaliseMembers`: what normal members hold.
* `nodup_names_normaliseMembers`: they have distinct names.
* `agree_normalise`: the value of a tree and that of its normal form agree.
* `readings_of_json_agree`: so do the two readings of a text.
-/

namespace DocTree

namespace Tree

/-- A tree that contains no other. -/
def isScalar : Tree → Bool
  | list _ | object _ => false
  | _ => true

/-- A property of trees holds throughout if a list and an object have it whenever all in them
    do. -/
theorem induction {P : Tree → Prop} (scalar : ∀ t, t.isScalar = true → P t)
    (list : ∀ ts, (∀ t ∈ ts, P t) → P (list ts))
    (object : ∀ ms, (∀ m ∈ ms, P m.2) → P (object ms)) (t : Tree) : P t :=
  @Tree.rec P (fun ts => ∀ t ∈ ts, P t) (fun ms => ∀ m ∈ ms, P m.2) (fun m => P m.2)
    (scalar null rfl) (fun b => scalar (bool b) rfl) (fun i => scalar (integer i) rfl)
    (fun x => scalar (float x) rfl) (fun s => scalar (string s) rfl) list object
    (fun _ h => absurd h List.not_mem_nil) (fun _ _ ht hts => List.forall_mem_cons.mpr ⟨ht, hts⟩)
    (fun _ h => absurd h List.not_mem_nil) (fun _ _ hm hms => List.forall_mem_cons.mpr ⟨hm, hms⟩)
    (fun _ _ ht => ht) t

/-- The member of this name, the last one if there are several. -/
def member? (ms : List (String × Tree)) (name : String) : Option Tree :=
  ms.reverse.lookup name

/-! ## Normal members -/

theorem normaliseItems_eq (ts : List Tree) : normaliseItems ts = ts.map normalise := by
  induction ts with
  | nil => rfl
  | cons t ts ih => exact congrArg (t.normalise :: ·) ih

theorem lookup_cons (s r : String) (u : Tree) (ms : List (String × Tree)) :
    ((r, u) :: ms).lookup s = if s = r then some u else ms.lookup s := by
  rw [List.lookup_cons]
  by_cases hs : s = r
  · rw [if_pos hs, beq_iff_eq.mpr hs]
  · rw [if_neg hs, beq_eq_false_iff_ne.mpr hs]

theorem mem_of_lookup (ms : List (String × Tree)) (s : String) (t : Tree)
    (h : ms.lookup s = some t) : (s, t) ∈ ms := by
  rcases List.lookup_eq_some_iff.mp h with ⟨front, back, rfl, -⟩
  simp

/-- A member that is inserted is found under its name, and hides no other. -/
theorem lookup_insertMember (name s : String) (t : Tree) (ms : List (String × Tree)) :
    (insertMember name t ms).lookup s = if s = name then some t else ms.lookup s := by
  induction ms with
  | nil => exact lookup_cons s name t []
  | cons m ms ih =>
      rcases m with ⟨r, u⟩
      rw [insertMember, lookup_cons]
      split
      · -- The member of this name is replaced.
        rename_i hname
        rw [lookup_cons, hname]
        split <;> rfl
      · rename_i hname
        split
        · rw [lookup_cons, lookup_cons]
        · rw [lookup_cons, ih]
          by_cases hs : s = r
          · rw [if_pos hs, if_pos hs, if_neg fun h => hname (h.symm.trans hs)]
          · rw [if_neg hs, if_neg hs]

/-- Inserting a member adds its name. -/
theorem mem_names_insertMember (name s : String) (t : Tree) (ms : List (String × Tree)) :
    s ∈ (insertMember name t ms).map Prod.fst ↔ s = name ∨ s ∈ ms.map Prod.fst := by
  induction ms with
  | nil => simp [insertMember]
  | cons m ms ih =>
      rcases m with ⟨r, u⟩
      rw [insertMember]
      split
      · rename_i hname
        simp [← hname]
      · split
        · simp
        · simp only [List.map_cons, List.mem_cons, ih]
          exact or_left_comm

/-- Names that are sorted stay so. -/
theorem sorted_insertMember (name : String) (t : Tree) (ms : List (String × Tree))
    (h : (ms.map Prod.fst).Pairwise (· < ·)) :
    ((insertMember name t ms).map Prod.fst).Pairwise (· < ·) := by
  induction ms with
  | nil => exact List.pairwise_singleton _ _
  | cons m ms ih =>
      rcases m with ⟨r, u⟩
      rcases List.pairwise_cons.mp h with ⟨hr, hms⟩
      rw [insertMember]
      split
      · rename_i hname
        rw [hname]
        exact h
      · rename_i hne
        split
        · rename_i hlt
          refine List.pairwise_cons.mpr ⟨fun s hs => ?_, h⟩
          rcases List.mem_cons.mp hs with rfl | hs
          · exact hlt
          · exact hlt.trans (hr s hs)
        · rename_i hge
          refine List.pairwise_cons.mpr ⟨fun s hs => ?_, ih hms⟩
          rcases (mem_names_insertMember name s t ms).mp hs with rfl | hs
          · exact lt_of_le_of_ne (not_lt.mp hge) (Ne.symm hne)
          · exact hr s hs

/-- Normal members hold what the last member of a name is in normal form. -/
theorem lookup_normaliseMembers (sorted ms : List (String × Tree)) (s : String) :
    (normaliseMembers sorted ms).lookup s
      = ((member? ms s).map normalise).or (sorted.lookup s) := by
  -- Induction on the members, of which a later one takes the place of an earlier one.
  induction ms generalizing sorted with
  | nil => rfl
  | cons m ms ih =>
      rcases m with ⟨name, t⟩
      rw [normaliseMembers, ih, lookup_insertMember, member?, member?, List.reverse_cons,
        List.lookup_append, lookup_cons, List.lookup_nil]
      cases ms.reverse.lookup s with
      | some u => rfl
      | none => split <;> rfl

theorem mem_names_normaliseMembers (sorted ms : List (String × Tree)) (s : String) :
    s ∈ (normaliseMembers sorted ms).map Prod.fst
      ↔ s ∈ ms.map Prod.fst ∨ s ∈ sorted.map Prod.fst := by
  induction ms generalizing sorted with
  | nil => simp [normaliseMembers]
  | cons m ms ih =>
      rcases m with ⟨name, t⟩
      rw [normaliseMembers, ih, mem_names_insertMember, List.map_cons, List.mem_cons, or_left_comm,
        or_assoc]

theorem sorted_normaliseMembers (sorted ms : List (String × Tree))
    (h : (sorted.map Prod.fst).Pairwise (· < ·)) :
    ((normaliseMembers sorted ms).map Prod.fst).Pairwise (· < ·) := by
  induction ms generalizing sorted with
  | nil => exact h
  | cons m ms ih =>
      rcases m with ⟨name, t⟩
      exact ih _ (sorted_insertMember name t.normalise sorted h)

/-- Normal members have distinct names. -/
theorem nodup_names_normaliseMembers (ms : List (String × Tree)) :
    ((normaliseMembers [] ms).map Prod.fst).Nodup :=
  (sorted_normaliseMembers [] ms .nil).imp fun h => ne_of_lt h

end Tree

namespace Value

/-! ## Values of members -/

theorem ofTrees_eq (ts : List Tree) : ofTrees ts = ts.map ofTree := by
  induction ts with
  | nil => rfl
  | cons t ts ih => exact congrArg (ofTree t :: ·) ih

theorem ofMembers_eq (ms : List (String × Tree)) :
    ofMembers ms = ms.map fun m => (Key.parse m.1, ofTree m.2) := by
  induction ms with
  | nil => rfl
  | cons m ms ih => exact congrArg ((Key.parse m.1, ofTree m.2) :: ·) ih

/-- The keys of members, in order. -/
theorem keys_ofMembers (ms : List (String × Tree)) :
    Entries.keys (ofMembers ms) = (ms.map Prod.fst).map Key.parse := by
  rw [ofMembers_eq, Entries.keys, List.map_map, List.map_map]
  rfl

/-- A key is read where its text is found. -/
theorem get?_ofMembers (ms : List (String × Tree)) (name : String) :
    Entries.get? (ofMembers ms) (Key.parse name) = (ms.lookup name).map ofTree := by
  induction ms with
  | nil => rfl
  | cons m ms ih =>
      rcases m with ⟨s, t⟩
      rw [ofMembers, Entries.get?, Tree.lookup_cons, ih]
      by_cases hs : name = s
      · rw [if_pos hs, if_pos (congrArg Key.parse hs.symm), Option.map_some]
      · rw [if_neg hs, if_neg fun h => hs (Key.parse_injective h).symm]

/-- Under the key of a name is the value of its last member. -/
theorem get?_collect_ofMembers (ms : List (String × Tree)) (name : String) :
    Entries.get? (Entries.collect (ofMembers ms)) (Key.parse name)
      = (Tree.member? ms name).map ofTree := by
  rw [Entries.get?_collect, ofMembers_eq, ← List.map_reverse, ← ofMembers_eq, get?_ofMembers,
    Tree.member?]

/-- The keys are those of the names. -/
theorem mem_keys_collect_ofMembers (ms : List (String × Tree)) (key : Key) :
    key ∈ Entries.keys (Entries.collect (ofMembers ms))
      ↔ ∃ name ∈ ms.map Prod.fst, Key.parse name = key := by
  rw [Entries.keys_collect, List.mem_eraseDups, keys_ofMembers, List.mem_map]

/-- In normal form, under the key of a name is the normal form of its last member. -/
theorem get?_collect_normaliseMembers (ms : List (String × Tree)) (name : String) :
    Entries.get? (Entries.collect (ofMembers (Tree.normaliseMembers [] ms))) (Key.parse name)
      = (Tree.member? ms name).map fun t => ofTree t.normalise := by
  -- Distinct names make distinct keys, so that no entry is overwritten.
  have hdistinct : Entries.Distinct (ofMembers (Tree.normaliseMembers [] ms)) := by
    rw [Entries.Distinct, keys_ofMembers]
    exact (Tree.nodup_names_normaliseMembers ms).map Key.parse_injective
  rw [Entries.collect_of_distinct _ hdistinct, get?_ofMembers, Tree.lookup_normaliseMembers,
    List.lookup_nil, Option.or_none, Option.map_map]
  rfl

/-! ## Agreement -/

/-- Two values of a tree differ in the order of entries that come from members, and in nothing
    else: scalars are the same, items agree one by one, and members give both containers the same
    keys with values that agree. -/
inductive Agree : Tree → Value → Value → Prop
  | scalar (t : Tree) (v : Value) : t.isScalar = true → v.isContainer = false → Agree t v v
  | list (ts : List Tree) (vs ws : List Value) :
      vs.length = ts.length → ws.length = ts.length →
      (∀ (n : Nat) t v w, ts[n]? = some t → vs[n]? = some v → ws[n]? = some w → Agree t v w) →
      Agree (.list ts) (sequence vs) (sequence ws)
  | object (ms : List (String × Tree)) (c d : List (Key × Value)) :
      Entries.Distinct c → (Entries.keys c).Perm (Entries.keys d) →
      (∀ key ∈ Entries.keys c, (Tree.member? ms key.text).isSome) →
      (∀ key t v w, Tree.member? ms key.text = some t → Entries.get? c key = some v →
        Entries.get? d key = some w → Agree t v w) →
      Agree (.object ms) (container c) (container d)

/-- A scalar tree has a scalar value. -/
theorem isContainer_ofTree_of_isScalar (t : Tree) (h : t.isScalar = true) :
    (ofTree t).isContainer = false := by
  cases t with
  | list _ | object _ => exact absurd h (by simp [Tree.isScalar])
  | integer i =>
      rw [ofTree, ofInteger]
      split <;> rfl
  | _ => rfl

/-- The value of a tree and that of its normal form agree. -/
theorem agree_normalise (t : Tree) : Agree t (ofTree t) (ofTree t.normalise) := by
  induction t using Tree.induction with
  | scalar t ht =>
      have hnormal : t.normalise = t := by
        cases t with
        | list _ | object _ => exact absurd ht (by simp [Tree.isScalar])
        | _ => rfl
      rw [hnormal]
      exact .scalar t _ ht (isContainer_ofTree_of_isScalar t ht)
  | list ts ih =>
      rw [Tree.normalise, ofTree, ofTree, Tree.normaliseItems_eq, ofTrees_eq, ofTrees_eq]
      refine .list ts _ _ (List.length_map _) (by simp) fun n t v w ht hv hw => ?_
      rw [List.getElem?_map, ht, Option.map_some, Option.some.injEq] at hv
      rw [List.getElem?_map, List.getElem?_map, ht, Option.map_some, Option.map_some,
        Option.some.injEq] at hw
      rw [← hv, ← hw]
      exact ih t (List.mem_of_getElem? ht)
  | object ms ih =>
      rw [Tree.normalise, ofTree, ofTree]
      -- The names are the same, with repetitions or without.
      have hkeys (key : Key) : key ∈ Entries.keys (Entries.collect (ofMembers ms)) ↔
          key ∈ Entries.keys (Entries.collect (ofMembers (Tree.normaliseMembers [] ms))) := by
        simp only [mem_keys_collect_ofMembers, Tree.mem_names_normaliseMembers, List.map_nil,
          List.not_mem_nil, or_false]
      refine .object ms _ _ (Entries.distinct_collect _)
        ((List.perm_ext_iff_of_nodup (Entries.distinct_collect _)
          (Entries.distinct_collect _)).mpr hkeys) (fun key hkey => ?_)
        fun key t v w ht hv hw => ?_
      · rcases (mem_keys_collect_ofMembers ms key).mp hkey with ⟨name, -, rfl⟩
        rw [← Entries.isSome_get?_iff, get?_collect_ofMembers, Option.isSome_map] at hkey
        rwa [Key.text_parse]
      · -- Both values under a key come from the last member of its name.
        have hkey : key ∈ Entries.keys (Entries.collect (ofMembers ms)) := by
          rw [← Entries.isSome_get?_iff, hv, Option.isSome_some]
        rcases (mem_keys_collect_ofMembers ms key).mp hkey with ⟨name, -, rfl⟩
        rw [Key.text_parse] at ht
        rw [get?_collect_ofMembers, ht, Option.map_some, Option.some.injEq] at hv
        rw [get?_collect_normaliseMembers, ht, Option.map_some, Option.some.injEq] at hw
        rw [← hv, ← hw]
        exact ih (name, t) (List.mem_reverse.mp (Tree.mem_of_lookup _ name t ht))

/-- Reading a text as it stands, by trying one kind of value after the other, and reading it in
    normal form come to values that agree. -/
theorem readings_of_json_agree (text : String) (v : Value) (h : ofJson text = .ok v) :
    ∃ t w, Json.parse text = .ok t ∧ firstFit? t.toDatum = some v ∧
      ofJsonNormalised text = .ok w ∧ Agree t v w := by
  rcases (ofJson_eq_ok_iff text v).mp h with ⟨t, ht, rfl⟩
  have hfit : firstFit? t.toDatum = some (ofTree t) := by
    rw [firstFit?_eq_ofDatum?, ofDatum?_toDatum]
  exact ⟨t, ofTree t.normalise, ht, hfit, by rw [ofJsonNormalised, ht], agree_normalise t⟩

/-- A name given twice, names that spell integers, an integer beyond 64 bits and a negative zero. -/
theorem readings_agree_beside_repeated_name :
    let text := "\x7b\"b\":1,\"1\":[18446744073709551615,-0],\"b\":\x7b\"9\":2,\"10\":null\x7d\x7d"
    let t : Tree := .object
      [("b", .integer 1), ("1", .list [.integer 18446744073709551615, .float ⟨0x8000000000000000⟩]),
        ("b", .object [("9", .integer 2), ("10", .null)])]
    let items : Value := .container
      [(.index 0, .float ⟨0x43F0000000000000⟩), (.index 1, .float ⟨0x8000000000000000⟩)]
    let v : Value := .container
      [(.name "b", .container [(.index 9, .int 2), (.index 10, .null)]), (.index 1, items)]
    let w : Value := .container
      [(.index 1, items), (.name "b", .container [(.index 10, .null), (.index 9, .int 2)])]
    ofJson text = .ok v ∧ firstFit? t.toDatum = some v ∧ ofJsonNormalised text = .ok w ∧
      Agree t v w := by
  intro text t items v w
  have hparse : Json.parse text = .ok t := by
    unfold text
    rfl
  have hread : ofJson text = .ok v := (ofJson_eq_ok_iff text v).mpr ⟨t, hparse, rfl⟩
  have hnormalised : ofJsonNormalised text = .ok w := by
    rw [ofJsonNormalised, hparse]
    rfl
  rcases readings_of_json_agree text v hread with ⟨t', w', ht, hfit, hw, hagree⟩
  rw [hparse, Except.ok.injEq] at ht
  rw [hnormalised, Except.ok.injEq] at hw
  rw [← ht] at hfit hagree
  rw [← hw] at hagree
  exact ⟨hread, hfit, hnormalised, hagree⟩

end Value

end DocTree
