import Mathlib
import DocTree.Path.Basic
import DocTree.Path.Segment

/-!
# Splitting and Joining Paths

Joining the segments of a path gives its text back, for any separator. No segment holds
the separator: wherever it starts in the text, it is taken there, unless a separator taken
before reaches over that place. The other way round is not as good: segments that are joined
may come apart elsewhere, since a segment that did not come from splitting may hold a
separator, and so may the seam of two.

For a separator of one character there is no seam, and a text splits into one segment
more than there are separators in it. So segments that come apart into as many as they
were hold no separator, and then they are the ones that come back.

## Theorems

* `parse_of_clause_eq_none`: a segment without a clause is its own key.
* `segments_ne_nil`: a path has at least one segment.
* `join_parse`: joining undoes splitting.
* `not_isInfix_of_mem_segments`: no segment holds the separator.
* `segments_empty`, `segments_wildcard`: the texts that are one segment for nearly any separator.
* `ne_of_segments`: segments that are neither empty nor wildcards make no such text.
* `one_lt_length_of_isWildcard`: a path with wildcards has other segments, unless it is one.
* `not_mem_of_mem_segments`: no segment holds a separator of one character.
* `segments_join_of_not_mem`: segments without a separator of one character come back.
* `segments_join`: as many segments as before are the segments from before.
* `splitting_and_joining`: splitting and joining undo each other.
-/

namespace DocTree

theorem Segment.parse_of_clause_eq_none (raw : String) (h : (Segment.parse raw).clause = none) :
    Segment.parse raw = Segment.literal raw := by
  unfold Segment.parse at h ⊢
  split
  · rename_i hparts
    simp only [hparts] at h
    split
    · rename_i hselector
      simp [hselector] at h
    · rfl
  · rfl

namespace Path

theorem splitChars_ne_nil (separator : List Char) (skip : Nat) (cs : List Char) :
    splitChars separator skip cs ≠ [] := by
  fun_induction splitChars separator skip cs <;> simp_all

theorem segments_ne_nil (text separator : String) : (parse text separator).segments ≠ [] := by
  unfold parse
  split
  · exact List.cons_ne_nil _ _
  · simpa using splitChars_ne_nil separator.toList 0 text.toList

/-! ## Joining what was split -/

theorem intercalate_splitChars (separator : List Char) (hne : separator ≠ []) (skip : Nat)
    (cs : List Char) :
    separator.intercalate (splitChars separator skip cs) = cs.drop skip := by
  -- Induction on the text, along with how many characters are still to be passed over.
  fun_induction splitChars separator skip cs with
  | case1 skip => simp
  | case2 skip c cs ih => simpa using ih
  | case3 c cs hprefix ih =>
      -- A separator is found, and its other characters are passed over.
      rcases List.isPrefixOf_iff_prefix.mp hprefix with ⟨rest, hrest⟩
      rw [List.intercalate_cons_of_ne_nil (splitChars_ne_nil _ _ _), ih, List.nil_append,
        List.drop_zero, ← hrest]
      cases separator with
      | nil => exact absurd rfl hne
      | cons d separator =>
          rw [List.cons_append, List.cons.injEq] at hrest
          rw [← hrest.2, List.length_cons, Nat.add_sub_cancel, List.drop_left]
  | case4 c cs hprefix hnil ih => exact absurd hnil (splitChars_ne_nil _ _ _)
  | case5 c cs hprefix s ss hsplit ih =>
      rw [hsplit, List.drop_zero] at ih
      rw [List.drop_zero, ← ih]
      cases ss <;> simp

/-- Joining undoes splitting. -/
theorem join_parse (text separator : String) :
    join (parse text separator).segments separator = text := by
  rw [join, ← String.toList_inj, String.toList_intercalate]
  unfold parse
  split
  · simp
  · rename_i hseparator
    have hne : separator.toList ≠ [] := by
      simpa [String.isEmpty_iff, ← String.toList_eq_nil_iff] using hseparator
    rw [List.map_map, show String.toList ∘ String.ofList = id from funext fun _ =>
      String.toList_ofList, List.map_id, intercalate_splitChars separator.toList hne,
      List.drop_zero]

theorem isPrefix_of_splitChars (separator : List Char) (hne : separator ≠ []) (cs s : List Char)
    (ss : List (List Char)) (h : splitChars separator 0 cs = s :: ss) : s <+: cs := by
  have hjoined := intercalate_splitChars separator hne 0 cs
  rw [h, List.drop_zero] at hjoined
  rw [← hjoined]
  cases ss with
  | nil => rw [List.intercalate_singleton]
  | cons s' ss =>
      rw [List.intercalate_cons_cons, List.append_assoc]
      exact List.prefix_append s _

/-- A separator that starts at a character is taken there, so no segment goes on over it. -/
theorem not_isInfix_of_mem_splitChars (separator : List Char) (hne : separator ≠ []) (skip : Nat)
    (cs : List Char) : ∀ s ∈ splitChars separator skip cs, ¬ separator <:+: s := by
  have hnil : ¬ separator <:+: [] := fun h => hne (List.infix_nil.mp h)
  -- Induction on the text. A segment ends where a separator starts, so none can start inside of it.
  fun_induction splitChars separator skip cs with
  | case1 skip => exact List.forall_mem_singleton.mpr hnil
  | case2 skip c cs ih => exact ih
  | case3 c cs hprefix ih => exact List.forall_mem_cons.mpr ⟨hnil, ih⟩
  | case4 c cs hprefix hempty ih => exact absurd hempty (splitChars_ne_nil _ _ _)
  | case5 c cs hprefix s ss hsplit ih =>
      rw [hsplit, List.forall_mem_cons] at ih
      refine List.forall_mem_cons.mpr ⟨fun hinfix => ?_, ih.2⟩
      rcases List.infix_cons_iff.mp hinfix with hstart | hlater
      · -- It would start at this character of the text, too.
        have hcs : c :: s <+: c :: cs :=
          (List.prefix_cons_inj c).mpr (isPrefix_of_splitChars separator hne cs s ss hsplit)
        exact hprefix (List.isPrefixOf_iff_prefix.mpr (hstart.trans hcs))
      · exact ih.1 hlater

/-- No segment holds the separator. -/
theorem not_isInfix_of_mem_segments (text separator : String) (hne : separator ≠ "") (s : String)
    (hs : s ∈ (parse text separator).segments) : ¬ separator.toList <:+: s.toList := by
  have hne' : separator.toList ≠ [] := fun h => hne (String.toList_eq_nil_iff.mp h)
  rw [parse, if_neg (by rwa [String.isEmpty_iff])] at hs
  rcases List.mem_map.mp hs with ⟨cs, hcs, rfl⟩
  rw [String.toList_ofList]
  exact not_isInfix_of_mem_splitChars separator.toList hne' 0 text.toList cs hcs

/-! ## Wildcards -/

theorem segments_empty (separator : String) : (parse "" separator).segments = [""] := by
  unfold parse
  split <;> rfl

/-- A lone wildcard is one segment, unless it is the separator. -/
theorem segments_wildcard (separator : String) (h : separator ≠ wildcard) :
    (parse wildcard separator).segments = [wildcard] := by
  unfold parse
  split
  · rfl
  · rename_i hseparator
    have hprefix : separator.toList.isPrefixOf ['*'] = false := by
      rw [Bool.eq_false_iff]
      intro hprefix
      rcases List.isPrefixOf_iff_prefix.mp hprefix with ⟨rest, hrest⟩
      rcases List.append_eq_singleton_iff.mp hrest with ⟨hnil, _⟩ | ⟨hall, _⟩
      · exact hseparator (String.isEmpty_iff.mpr (String.toList_eq_nil_iff.mp hnil))
      · exact h (String.toList_inj.mp hall)
    simp [wildcard, splitChars, hprefix]

/-- A path without empty segments and wildcards is neither of the texts that are not walked. -/
theorem ne_of_segments (text separator : String)
    (h : ∀ s ∈ (parse text separator).segments, s ≠ "" ∧ s ≠ wildcard) :
    text ≠ "" ∧ text ≠ wildcard := by
  refine ⟨?_, ?_⟩
  · rintro rfl
    exact (h "" (by rw [segments_empty]; exact List.mem_cons_self)).1 rfl
  · rintro rfl
    by_cases hseparator : separator = wildcard
    · exact (h "" (by rw [hseparator]; decide)).1 rfl
    · exact (h wildcard (by rw [segments_wildcard _ hseparator]; simp)).2 rfl

/-- A path with a wildcard in it has another segment, unless it is a lone wildcard. -/
theorem one_lt_length_of_isWildcard (text separator : String) (htext : text ≠ wildcard)
    (h : (parse text separator).isWildcard = true) : 1 < (parse text separator).length := by
  -- If the wildcard were the only segment, the text would be the wildcard.
  rcases hsegments : (parse text separator).segments with _ | ⟨s, _ | ⟨s', ss⟩⟩
  · exact absurd hsegments (segments_ne_nil text separator)
  · have htext' := join_parse text separator
    rw [isWildcard, hsegments, List.any_cons, List.any_nil, Bool.or_false, decide_eq_true_eq] at h
    rw [hsegments, h, join, String.intercalate_singleton] at htext'
    exact absurd htext'.symm htext
  · rw [length, hsegments, List.length_cons, List.length_cons]
    omega

/-! ## Separators of one character -/

variable {separator : String} {c : Char}

/-- Splitting on one character is the splitting of lists. -/
theorem splitChars_singleton (cs : List Char) : splitChars [c] 0 cs = cs.splitOn c := by
  induction cs with
  | nil => exact (List.splitOn_nil c).symm
  | cons d cs ih =>
      rw [splitChars, List.splitOn_cons_eq_if_modifyHead, ← ih]
      by_cases hd : d = c
      · simp [hd]
      · rw [if_neg (by simpa using Ne.symm hd), if_neg (by simpa using hd)]
        cases hsplit : splitChars [c] 0 cs with
        | nil => exact absurd hsplit (splitChars_ne_nil _ _ _)
        | cons s ss => rfl

theorem segments_of_singleton (h : separator.toList = [c]) (text : String) :
    (parse text separator).segments = (text.toList.splitOn c).map String.ofList := by
  have hne : ¬ separator.isEmpty = true := by
    rw [String.isEmpty_iff, ← String.toList_eq_nil_iff, h]
    exact List.cons_ne_nil _ _
  rw [parse, if_neg hne, h, splitChars_singleton]

/-- No segment holds a separator of one character. -/
theorem not_mem_of_mem_segments (h : separator.toList = [c]) (text s : String)
    (hs : s ∈ (parse text separator).segments) : c ∉ s.toList := by
  have hne : separator ≠ "" := by
    rintro rfl
    exact absurd h (by simp)
  intro hmem
  refine not_isInfix_of_mem_segments text separator hne s hs ?_
  rw [h]
  exact (List.singleton_infix_iff c s.toList).mpr hmem

theorem length_splitOn (cs : List Char) : (cs.splitOn c).length = cs.count c + 1 := by
  induction cs with
  | nil => simp [List.splitOn_nil]
  | cons d cs ih =>
      rw [List.splitOn_cons_eq_if_modifyHead, List.count_cons]
      split
      · rw [List.length_cons, ih]
      · rw [List.length_modifyHead, ih]

theorem count_intercalate (s : List Char) (ss : List (List Char)) :
    ([c].intercalate (s :: ss)).count c = ((s :: ss).map (List.count c)).sum + ss.length := by
  -- Induction on the pieces, with one separator between each two of them.
  induction ss generalizing s with
  | nil => simp
  | cons s' ss ih =>
      rw [List.intercalate_cons_cons, List.count_append, List.count_append, ih,
        List.count_singleton_self, List.length_cons, List.map_cons (l := s' :: ss), List.sum_cons]
      omega

/-- What is split on wildcards has no segment that is one. -/
theorem separator_ne_wildcard (text separator : String)
    (h : (parse text separator).isWildcard = true) : separator ≠ wildcard := by
  rintro rfl
  rw [isWildcard, List.any_eq_true] at h
  rcases h with ⟨s, hs, hwildcard⟩
  refine not_mem_of_mem_segments (c := '*') rfl text s hs ?_
  rw [of_decide_eq_true hwildcard]
  decide

/-- Segments without a separator of one character come back when they are joined. -/
theorem segments_join_of_not_mem (h : separator.toList = [c]) (segments : List String)
    (hne : segments ≠ []) (hnone : ∀ s ∈ segments, c ∉ s.toList) :
    (parse (join segments separator) separator).segments = segments := by
  have htext : (join segments separator).toList = [c].intercalate (segments.map String.toList) := by
    rw [join, String.toList_intercalate, h]
  have hnone' : ∀ s ∈ segments.map String.toList, c ∉ s := by
    intro s hs
    rcases List.mem_map.mp hs with ⟨s', hs', rfl⟩
    exact hnone s' hs'
  rw [segments_of_singleton h, htext, List.splitOn_intercalate c hnone' (by simpa using hne),
    List.map_map]
  exact List.map_id'' (fun s => String.ofList_toList) segments

/-- Joined segments that come apart into as many are the segments that come back. -/
theorem segments_join (h : separator.toList = [c]) (segments : List String)
    (hne : segments ≠ [])
    (hlength : (parse (join segments separator) separator).segments.length = segments.length) :
    (parse (join segments separator) separator).segments = segments := by
  refine segments_join_of_not_mem h segments hne fun s hs => ?_
  have htext : (join segments separator).toList = [c].intercalate (segments.map String.toList) := by
    rw [join, String.toList_intercalate, h]
  rw [segments_of_singleton h, htext, List.length_map, length_splitOn] at hlength
  -- There are no more separators than there are seams.
  cases segments with
  | nil => exact absurd rfl hne
  | cons s₀ ss =>
      have hcount := count_intercalate (c := c) s₀.toList (ss.map String.toList)
      rw [List.map_cons, hcount, List.length_map, List.length_cons] at hlength
      have hzero : ((s₀.toList :: ss.map String.toList).map (List.count c)).sum = 0 := by omega
      rw [← List.count_eq_zero]
      refine List.sum_eq_zero_iff.mp hzero _ (List.mem_map_of_mem ?_)
      rw [← List.map_cons]
      exact List.mem_map_of_mem hs

/-- Joining undoes splitting, for every text and every separator, and there is at least one
    segment. No segment holds the separator, unless that is empty. Splitting undoes joining for a
    separator of one character and segments that do not hold it, if there is a segment. -/
theorem splitting_and_joining :
    (∀ text separator,
      join (parse text separator).segments separator = text ∧
      (parse text separator).segments ≠ [] ∧
      (separator ≠ "" → ∀ s ∈ (parse text separator).segments,
        ¬ separator.toList <:+: s.toList)) ∧
    ∀ separator segments, separator.length = 1 → segments ≠ [] →
      (∀ s ∈ segments, ¬ separator.toList <:+: s.toList) →
      (parse (join segments separator) separator).segments = segments := by
  refine ⟨fun text separator => ⟨join_parse text separator, segments_ne_nil text separator,
    not_isInfix_of_mem_segments text separator⟩, fun separator segments hlength hne hnone => ?_⟩
  rcases List.length_eq_one_iff.mp (String.length_toList.trans hlength) with ⟨c, hc⟩
  refine segments_join_of_not_mem hc segments hne fun s hs hmem => hnone s hs ?_
  rw [hc]
  exact (List.singleton_infix_iff c s.toList).mpr hmem

/-- A separator that overlaps with itself is taken from the left. Empty segments stand for
    separators at the ends and side by side. -/
theorem splitting_and_joining_at_seams :
    (parse "aaabaa" "aa").segments = ["", "ab", ""] ∧
      (∀ s ∈ ["", "ab", ""], ¬ "aa".toList <:+: s.toList) ∧
      join ["", "ab", ""] "aa" = "aaabaa" ∧
      (parse (join ["", "", "a", ""] "/") "/").segments = ["", "", "a", ""] := by
  have hsegments : (parse "aaabaa" "aa").segments = ["", "ab", ""] := by decide +kernel
  rcases splitting_and_joining with ⟨hsplit, hjoin⟩
  rcases hsplit "aaabaa" "aa" with ⟨hjoined, _, hnone⟩
  rw [hsegments] at hjoined hnone
  exact ⟨hsegments, hnone (by decide), hjoined, hjoin "/" _ rfl (by decide) (by decide +kernel)⟩

end Path

end DocTree
