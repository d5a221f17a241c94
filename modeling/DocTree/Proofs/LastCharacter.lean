import Mathlib
import DocTree.Blank
import DocTree.Json.Writer
import DocTree.Proofs.Key

/-!
# Last Characters

A text is printed without the blanks at its end. A text whose last character is no blank
is printed as it is, and that is so for every number in every format, and for every JSON
text, since these end in a digit, a letter, a quote or a bracket.

## Main definitions

* `Blank.EndsSolid`: the last character is no blank.

## Theorems

* `trimEnd_of_endsSolid`: there is nothing to trim.
* `endsSolid_text`: numbers.
* `endsSolid_writeAt`: JSON texts.
-/

namespace DocTree

namespace Blank

/-- The last character is no blank. -/
def EndsSolid (cs : List Char) : Prop :=
  ∃ c ∈ cs.getLast?, isBlank c = false

instance (cs : List Char) : Decidable (EndsSolid cs) :=
  Option.decidableExistsMem cs.getLast?

theorem endsSolid_concat_iff (cs : List Char) (c : Char) :
    EndsSolid (cs ++ [c]) ↔ isBlank c = false := by
  simp [EndsSolid]

/-- Only the end counts. -/
theorem EndsSolid.append (cs : List Char) {ds : List Char} (h : EndsSolid ds) :
    EndsSolid (cs ++ ds) := by
  rcases h with ⟨c, hlast, hc⟩
  exact ⟨c, by rw [List.getLast?_append, hlast]; rfl, hc⟩

/-- There is nothing to trim. -/
theorem trimEnd_of_endsSolid (cs : List Char) (h : EndsSolid cs) : trimEnd cs = cs := by
  rcases h with ⟨c, hlast, hc⟩
  rcases List.getLast?_eq_some_iff.mp hlast with ⟨front, rfl⟩
  rw [trimEnd, List.reverse_concat, List.dropWhile_cons_of_neg (by simp [hc]),
    List.reverse_cons, List.reverse_reverse]

/-- A blank at the end is trimmed. -/
theorem trimEnd_concat_of_isBlank (cs : List Char) (c : Char) (h : isBlank c = true) :
    trimEnd (cs ++ [c]) = trimEnd cs := by
  rw [trimEnd, trimEnd, List.reverse_concat, List.dropWhile_cons_of_pos h]

/-- What is trimmed is nothing, or ends solid. -/
theorem endsSolid_trimEnd (cs : List Char) (h : trimEnd cs ≠ []) : EndsSolid (trimEnd cs) := by
  rw [trimEnd] at h ⊢
  cases hdrop : cs.reverse.dropWhile isBlank with
  | nil => exact absurd (by rw [hdrop]; rfl) h
  | cons c r =>
      have hhead := List.head?_dropWhile_not isBlank cs.reverse
      rw [hdrop] at hhead
      rw [List.reverse_cons, endsSolid_concat_iff]
      exact hhead

/-- No digit is a blank. -/
theorem not_isBlank_of_isDigit (c : Char) (h : c.isDigit = true) : isBlank c = false := by
  simp only [Char.isDigit, Bool.and_eq_true, decide_eq_true_eq, ge_iff_le,
    UInt32.le_iff_toNat_le] at h
  have hlow : 48 ≤ c.toNat := h.1
  have hhigh : c.toNat ≤ 57 := h.2
  -- The digits are in none of the ranges of blanks.
  simp only [isBlank, ranges, List.any_cons, List.any_nil, Bool.or_false, Bool.or_eq_false_iff,
    Bool.and_eq_false_iff, decide_eq_false_iff_not]
  omega

/-- Digits end solid. -/
theorem endsSolid_of_isDigit (ds : List Char) (hne : ds ≠ [])
    (h : ∀ c ∈ ds, c.isDigit = true) : EndsSolid ds :=
  ⟨ds.getLast hne, List.getLast?_eq_some_getLast hne,
    not_isBlank_of_isDigit _ (h _ (List.getLast_mem hne))⟩

end Blank

open Blank

/-! ## Numbers -/

theorem Decimal.endsSolid_ofNat (n : Nat) : EndsSolid (ofNat n) :=
  endsSolid_of_isDigit _ Nat.toDigits_ne_nil (isDigit_of_mem_ofNat n)

theorem Decimal.endsSolid_ofInt (i : Int) : EndsSolid (ofInt i) := by
  cases i with
  | ofNat n => exact endsSolid_ofNat n
  | negSucc n => exact (endsSolid_ofNat (n + 1)).append ['-']

namespace Binary64

/-- However digits are laid out, a digit comes last. -/
theorem endsSolid_layOut (l : Layout) (ds : List Char) (p : Int) (hne : ds ≠ [])
    (hdigits : ∀ c ∈ ds, c.isDigit = true) : EndsSolid (layOut l ds p) := by
  simp only [layOut]
  split
  · split
    · exact ⟨'0', by simp, by decide⟩
    · split
      · -- The point stands before the last digit.
        rename_i hnegative hscientific
        have hdrop : ds.drop ((p + ds.length - 1).toNat + 1) ≠ [] := by
          intro hnil
          rw [List.drop_eq_nil_iff] at hnil
          omega
        have hend := endsSolid_of_isDigit _ hdrop fun c hc => hdigits c (List.mem_of_mem_drop hc)
        exact (hend.append ['.']).append _
      · exact (endsSolid_of_isDigit ds hne hdigits).append _
  · exact (Decimal.endsSolid_ofInt _).append _

/-- A float ends solid if the texts for those that are not finite do. -/
theorem endsSolid_text (l : Layout) (x : Binary64) (hnan : EndsSolid l.nan.toList)
    (hinfinite : EndsSolid l.infinite.toList) (hminus : EndsSolid l.minusInfinite.toList) :
    EndsSolid (x.text l).toList := by
  rw [text]
  split
  · exact hnan
  · split
    · split
      · exact hminus
      · exact hinfinite
    · dsimp only
      split
      · rw [String.toList_ofList]
        exact ⟨'0', by simp, by decide⟩
      · rw [String.toList_ofList]
        exact (endsSolid_layOut l _ _ Nat.toDigits_ne_nil
          (Decimal.isDigit_of_mem_ofNat _)).append _

end Binary64

/-! ## JSON texts -/

namespace Json

/-- What is bracketed ends with the bracket. -/
theorem endsSolid_bracketed (pretty : Bool) (level : Nat) (opening closing : Char)
    (pieces : List (List Char)) (h : isBlank closing = false) :
    EndsSolid (bracketed pretty level opening closing pieces) := by
  unfold bracketed
  split
  · exact (endsSolid_concat_iff [opening] closing).mpr h
  · exact (endsSolid_concat_iff _ closing).mpr h

/-- A JSON text ends solid, whatever it is the text of. -/
theorem endsSolid_writeAt (pretty : Bool) (level : Nat) (t : Tree) :
    EndsSolid (writeAt pretty level t) := by
  -- By the form of the tree: letters, digits, a quote or a bracket come last.
  cases t with
  | null => exact ⟨'l', rfl, by decide⟩
  | bool b =>
      cases b with
      | false => exact ⟨'e', rfl, by decide⟩
      | true => exact ⟨'e', rfl, by decide⟩
  | integer i => exact Decimal.endsSolid_ofInt i
  | float x =>
      have hnull : EndsSolid "null".toList := ⟨'l', rfl, by decide⟩
      exact Binary64.endsSolid_text floats x hnull hnull hnull
  | string s => exact (endsSolid_concat_iff _ '"').mpr (by decide)
  | list items => exact endsSolid_bracketed pretty level '[' ']' _ (by decide)
  | object members => exact endsSolid_bracketed pretty level '\x7b' '\x7d' _ (by decide)

end Json

end DocTree
