import Mathlib
import DocTree.Codec
import DocTree.Proofs.LastCharacter
import DocTree.Proofs.Nesting

/-!
# How a YAML Text Ends

A YAML text ends in a break, and what stands before that break is up to the last scalar.
Most scalars have a digit, a letter, a quote or a bracket there, but a string that is
written plain or as a literal block has its own last characters there, and some of those
are blanks: a plain string may end in a blank that is not a space, and a literal block
has all the line feeds of its string.

So whether there is exactly one blank at the end of the text depends on the last string
alone, and not on what it is nested in.

## Main definitions

* `Yaml.KeepsEnd`: no blank stands before the last break, if this string comes last.
* `Value.lastString?`: the string that comes last in a value.
* `Value.KeepsEnd`: no blank stands before the last break of this value.
* `Page.Ends`: what a page has at its end, once the line is finished.

## Theorems

* `ends_plain`, `ends_quoted`, `ends_literal`: the end of a scalar.
* `ends_writeTree`, `toList_toYaml`: the end of a text.
-/

namespace DocTree

namespace Yaml

open DocTree.Blank (EndsSolid)

/-! ## Strings -/

/-- The characters less a final line feed. -/
def dropLineFeed (cs : List Char) : List Char :=
  if cs.getLast? = some '\n' then cs.dropLast else cs

/-- Where this string is written last, the text has a single blank at its end. Between quotes it
    does; otherwise the string has to end in another character, but for one line feed. -/
def KeepsEnd (cs : List Char) : Prop :=
  chooseStyle (preferredStyle cs) false cs = .single ∨
    chooseStyle (preferredStyle cs) false cs = .double ∨ EndsSolid (dropLineFeed cs)

instance (cs : List Char) : Decidable (KeepsEnd cs) :=
  inferInstanceAs (Decidable (_ ∨ _ ∨ _))

theorem dropLineFeed_concat (front : List Char) : dropLineFeed (front ++ ['\n']) = front := by
  simp [dropLineFeed]

theorem dropLineFeed_of_ne (front : List Char) (c : Char) (hc : c ≠ '\n') :
    dropLineFeed (front ++ [c]) = front ++ [c] := by
  simp [dropLineFeed, hc]

/-- A style is only ever changed to one with quotes. -/
theorem chooseStyle_cases (preferred : Style) (cs : List Char) :
    chooseStyle preferred false cs = preferred ∨ chooseStyle preferred false cs = .single ∨
      chooseStyle preferred false cs = .double := by
  cases preferred <;> simp only [chooseStyle] <;> grind

theorem isBlank_of_isBreak (c : Char) (h : isBreak c = true) :
    DocTree.Blank.isBlank c = true := by
  simp only [isBreak, Bool.or_eq_true, decide_eq_true_eq] at h
  rcases h with (((rfl | rfl) | rfl) | rfl) | rfl <;> decide

/-! ## The end of a page -/

/-- Once the line is finished, the page has a line feed at its end, and before it a character that
    is no blank, exactly under this condition. -/
def Page.Ends (p : Page) (kept : Prop) : Prop :=
  ∃ b d r, (p.indentTo 0).written = b :: d :: r ∧
    ((b = '\n' ∧ DocTree.Blank.isBlank d = false) ↔ kept)

theorem Page.Ends.congr {p : Page} {kept kept' : Prop} (h : p.Ends kept) (hkept : kept ↔ kept') :
    p.Ends kept' := by
  rcases h with ⟨b, d, r, hwritten, hiff⟩
  exact ⟨b, d, r, hwritten, hiff.trans hkept⟩

/-- A line with text on it is finished with a line feed. -/
theorem Page.written_indentTo_of_text (p : Page) (h : p.indented = false) :
    (p.indentTo 0).written = '\n' :: p.written := by
  simp [indentTo, h, endLine, putAll]

/-- A line on which there is nothing needs no end. -/
theorem Page.written_indentTo_of_empty (p : Page) (hindented : p.indented = true)
    (hspaced : p.spaced = true) (hcolumn : p.column = 0) :
    (p.indentTo 0).written = p.written := by
  simp [indentTo, hindented, hspaced, hcolumn, putAll]

theorem Page.ends_of_text (p : Page) (d : Char) (hindented : p.indented = false)
    (hwritten : p.written.head? = some d) (kept : Prop)
    (hkept : DocTree.Blank.isBlank d = false ↔ kept) : p.Ends kept := by
  rcases List.head?_eq_some_iff.mp hwritten with ⟨r, hr⟩
  exact ⟨'\n', d, r, by rw [p.written_indentTo_of_text hindented, hr],
    by rw [← hkept, and_iff_right rfl]⟩

theorem Page.written_putAll (p : Page) (cs : List Char) :
    (p.putAll cs).written = cs.reverse ++ p.written := by
  induction cs generalizing p with
  | nil => rfl
  | cons c cs ih =>
      rw [putAll, List.foldl_cons, ← putAll, ih (p.put c), List.reverse_cons, List.append_assoc]
      rfl

/-! ## Scalars -/

theorem ends_plain (p : Page) (indent : Nat) (cs : List Char) (h : cs ≠ []) :
    (writeScalar p .plain indent cs).Ends (EndsSolid cs) := by
  rcases List.eq_nil_or_concat cs with rfl | ⟨front, c, rfl⟩
  · exact absurd rfl h
  · rw [List.concat_eq_append]
    refine Page.ends_of_text _ c rfl ?_ _ (DocTree.Blank.endsSolid_concat_iff front c).symm
    simp only [writeScalar, Page.inText, Page.written_putAll, List.reverse_append,
      List.reverse_singleton, List.cons_append, List.head?_cons]

/-- A mark that does not count as indentation ends the line with its last character. -/
theorem ends_mark (p : Page) (c : Char) (hc : DocTree.Blank.isBlank c = false) :
    (p.mark [c] false false).Ends True :=
  Page.ends_of_text _ c (Bool.and_false _) rfl True (iff_true_intro hc)

theorem ends_quoted (p : Page) (style : Style) (indent : Nat) (cs : List Char)
    (h : style = .single ∨ style = .double) : (writeScalar p style indent cs).Ends True := by
  rcases h with rfl | rfl
  · exact Page.ends_of_text _ '\x27' rfl rfl True (iff_true_intro (by decide))
  · exact Page.ends_of_text _ '\x22' rfl rfl True (iff_true_intro (by decide))

/-! ## Literal blocks -/

/-- The lines of a literal block are written one character after the other. -/
theorem literalChars_concat (indent : Nat) (broken : Bool) (p : Page) (cs : List Char) (c : Char) :
    ∃ broken' : Bool, literalChars indent broken p (cs ++ [c])
      = literalChars indent broken' (literalChars indent broken p cs) [c] := by
  induction cs generalizing broken p with
  | nil => exact ⟨broken, rfl⟩
  | cons d cs ih =>
      simp only [List.cons_append, literalChars]
      split
      · exact ih true _
      · exact ih false _

theorem head?_written_literalChars (indent : Nat) (broken : Bool) (p : Page) (cs : List Char)
    (c : Char) : (literalChars indent broken p (cs ++ [c])).written.head? = some c := by
  rcases literalChars_concat indent broken p cs c with ⟨broken', hconcat⟩
  rw [hconcat, literalChars]
  split <;> rfl

theorem spaced_literalChars (indent : Nat) (broken : Bool) (p : Page) (cs : List Char)
    (h : p.spaced = true) : (literalChars indent broken p cs).spaced = true := by
  induction cs generalizing broken p with
  | nil => exact h
  | cons c cs ih =>
      rw [literalChars]
      split
      · exact ih _ _ h
      · refine ih _ _ ?_
        cases broken with
        | true => rfl
        | false => exact h

/-- After a final break a literal block is at an end; otherwise its last line is finished. -/
theorem ends_literal (p : Page) (indent : Nat) (cs : List Char) (h : cs ≠ []) :
    (writeScalar p .literal indent cs).Ends (EndsSolid (dropLineFeed cs)) := by
  rcases List.eq_nil_or_concat cs with rfl | ⟨front, c, rfl⟩
  · exact absurd rfl h
  rw [List.concat_eq_append] at h ⊢
  rw [writeScalar]
  -- The page with the header on it, and then with all but the last character.
  generalize hstart : (⟨_, _, true, true⟩ : Page) = start
  have hspaced : start.spaced = true := by rw [← hstart]
  rcases literalChars_concat indent true start front c with ⟨broken, hconcat⟩
  have hbefore : ∃ d r, (literalChars indent true start front).written = d :: r ∧
      (DocTree.Blank.isBlank d = false ↔ EndsSolid front) := by
    rcases List.eq_nil_or_concat front with rfl | ⟨front, d, rfl⟩
    · -- Right before the first character is the break behind the header.
      refine ⟨'\n', _, by rw [literalChars, ← hstart]; rfl, ?_⟩
      exact iff_of_false (by decide) (by simp [EndsSolid])
    · rw [List.concat_eq_append]
      rcases List.head?_eq_some_iff.mp (head?_written_literalChars indent true start front d) with
        ⟨r, hr⟩
      exact ⟨d, r, hr, (DocTree.Blank.endsSolid_concat_iff front d).symm⟩
  have hspaced' := spaced_literalChars indent true start front hspaced
  rw [hconcat, literalChars, literalChars]
  split
  · rename_i hbreak
    rcases hbefore with ⟨d, r, hwritten, hsolid⟩
    refine ⟨c, d, r, ?_, ?_⟩
    · dsimp only
      rw [Page.written_indentTo_of_empty]
      · exact congrArg (c :: ·) hwritten
      · rfl
      · exact hspaced'
      · rfl
    · by_cases hc : c = '\n'
      · rw [hc, dropLineFeed_concat, ← hsolid, and_iff_right rfl]
      · rw [dropLineFeed_of_ne front c hc, DocTree.Blank.endsSolid_concat_iff,
          isBlank_of_isBreak c hbreak]
        exact iff_of_false (fun hboth => hc hboth.1) (by simp)
  · rename_i hbreak
    have hc : c ≠ '\n' := by
      rintro rfl
      exact hbreak rfl
    rw [dropLineFeed_of_ne front c hc]
    exact Page.ends_of_text _ c rfl rfl _ (DocTree.Blank.endsSolid_concat_iff front c).symm

theorem preferredStyle_nil : preferredStyle [] = .single := by decide

/-- A string that may be written plain has no line feed at its end. -/
theorem dropLineFeed_of_plain (cs : List Char) (h : preferredStyle cs = .plain) :
    dropLineFeed cs = cs := by
  rw [dropLineFeed, if_neg]
  intro hlast
  have hmem : cs.contains '\n' = true := by
    rw [List.contains_iff_mem]
    exact List.mem_of_getLast? hlast
  rw [preferredStyle, if_pos hmem] at h
  exact absurd h (by simp)

theorem ends_writeString (p : Page) (indent : Nat) (s : String) :
    (writeString p false indent s).Ends (KeepsEnd s.toList) := by
  rw [writeString]
  generalize s.toList = cs
  have hquoted : ∀ style, style = .single ∨ style = .double →
      chooseStyle (preferredStyle cs) false cs = style →
      (writeScalar p style indent cs).Ends (KeepsEnd cs) := by
    intro style hstyle hchosen
    have hkept : KeepsEnd cs := by
      rcases hstyle with rfl | rfl
      · exact Or.inl hchosen
      · exact Or.inr (Or.inl hchosen)
    rw [show KeepsEnd cs = True from eq_true hkept]
    exact ends_quoted p style indent cs hstyle
  -- The style that is preferred is kept, or there are quotes.
  rcases chooseStyle_cases (preferredStyle cs) cs with hpreferred | hsingle | hdouble
  · have hne : preferredStyle cs ≠ .single → cs ≠ [] := by
      rintro hstyle rfl
      exact hstyle preferredStyle_nil
    cases hstyle : preferredStyle cs with
    | plain =>
        rw [hstyle] at hpreferred hne
        have hkept : KeepsEnd cs = EndsSolid cs := by
          simp [KeepsEnd, hstyle, hpreferred, dropLineFeed_of_plain cs hstyle]
        rw [hpreferred, hkept]
        exact ends_plain p indent cs (hne (by simp))
    | literal =>
        rw [hstyle] at hpreferred hne
        have hkept : KeepsEnd cs = EndsSolid (dropLineFeed cs) := by
          simp [KeepsEnd, hstyle, hpreferred]
        rw [hpreferred, hkept]
        exact ends_literal p indent cs (hne (by simp))
    | single =>
        rw [hstyle] at hpreferred
        rw [hpreferred]
        exact hquoted .single (Or.inl rfl) (by rw [hstyle, hpreferred])
    | double =>
        rw [hstyle] at hpreferred
        rw [hpreferred]
        exact hquoted .double (Or.inr rfl) (by rw [hstyle, hpreferred])
  · rw [hsingle]
    exact hquoted .single (Or.inl rfl) hsingle
  · rw [hdouble]
    exact hquoted .double (Or.inr rfl) hdouble

end Yaml

/-! ## Trees -/

namespace Value

mutual

/-- The string that comes last in a value, if a string does. -/
def lastString? : Value → Option String
  | string s => some s
  | container c => lastStringOf? c
  | _ => none

def lastStringOf? : List (Key × Value) → Option String
  | [] => none
  | [(_, v)] => lastString? v
  | _ :: e :: c => lastStringOf? (e :: c)

end

end Value

namespace Yaml

open DocTree.Blank (EndsSolid)

/-- What is written of a value ends as its last string does. -/
theorem ends_writeTree (v : Value) (outer : Option Nat) (inObject : Bool) (p : Page) :
    (writeTree outer inObject p (Tree.ofValue v)).Ends
      (∀ s ∈ v.lastString?, KeepsEnd s.toList) := by
  -- Items and members have the same values in the same order, so one statement is about both.
  refine (Value.induction
    (P := fun v => ∀ outer inObject p, (writeTree outer inObject p (Tree.ofValue v)).Ends
      (∀ s ∈ v.lastString?, KeepsEnd s.toList))
    (Q := fun c => c ≠ [] → ∀ indent p,
      (writeItems indent p (Tree.ofValues c)).Ends
          (∀ s ∈ Value.lastStringOf? c, KeepsEnd s.toList) ∧
        (writeMembers indent p (Tree.ofEntries c)).Ends
          (∀ s ∈ Value.lastStringOf? c, KeepsEnd s.toList))
    (fun v hv outer inObject p => ?_) (fun c hc outer inObject p => ?_)
    (fun hnil => absurd rfl hnil)
    fun key v c hv hc _ indent p => ?_).1 v outer inObject p
  · -- Nothing but a string can have a blank at its end.
    have hsolid : ∀ cs indent, EndsSolid cs → (writeScalar p .plain indent cs).Ends
        (∀ s ∈ (none : Option String), KeepsEnd s.toList) := by
      intro cs indent hcs
      have hne : cs ≠ [] := by
        rintro rfl
        exact absurd hcs (by simp [EndsSolid])
      exact (ends_plain p indent cs hne).congr (iff_of_true hcs fun s hs => absurd hs (by simp))
    cases v with
    | null => exact hsolid _ (scalarIndent outer) ⟨'l', rfl, by decide⟩
    | bool b =>
        refine hsolid _ (scalarIndent outer) ?_
        cases b with
        | false => exact ⟨'e', rfl, by decide⟩
        | true => exact ⟨'e', rfl, by decide⟩
    | int i => exact hsolid _ (scalarIndent outer) (Decimal.endsSolid_ofInt _)
    | float x =>
        exact hsolid _ (scalarIndent outer) (Binary64.endsSolid_text floats x ⟨'n', rfl, by decide⟩
          ⟨'f', rfl, by decide⟩ ⟨'f', rfl, by decide⟩)
    | string s =>
        refine (ends_writeString p (scalarIndent outer) s).congr ?_
        simp [Value.lastString?]
    | container c => exact absurd hv (by simp [Value.isContainer])
  · -- An empty container is a pair of brackets.
    cases c with
    | nil =>
        refine (ends_mark _ ']' (by decide)).congr (iff_of_true trivial fun s hs => ?_)
        exact absurd hs (by simp [Value.lastString?, Value.lastStringOf?])
    | cons e c =>
        rw [Value.lastString?, Tree.ofValue]
        split
        · exact (hc (List.cons_ne_nil e c) _ p).1
        · exact (hc (List.cons_ne_nil e c) _ p).2
  · -- The page ends with the last entry, whatever the others have left on it.
    cases c with
    | nil => exact ⟨hv _ _ _, hv _ _ _⟩
    | cons e c =>
        have hrest := hc (List.cons_ne_nil e c) indent
        exact ⟨(hrest _).1, (hrest _).2⟩

/-- The text of a tree is the page, once its line is finished. -/
theorem toList_write (t : Tree) :
    (write t).toList = ((writeTree none false .blank t).indentTo 0).written.reverse := by
  rw [write, String.toList_ofList]

end Yaml

/-- The YAML text of the value has a single blank at its end. -/
def Value.KeepsEnd (v : Value) : Prop :=
  ∀ s ∈ v.lastString?, Yaml.KeepsEnd s.toList

instance (v : Value) : Decidable v.KeepsEnd :=
  Option.decidableForallMem v.lastString?

/-- A value has a YAML text of two characters at least. Of the last two, the one is a line feed and
    the other no blank, exactly if the value keeps its end. -/
theorem Value.toList_toYaml (v : Value) :
    ∃ front d b, v.toYaml.toList = front ++ [d] ++ [b] ∧
      ((b = '\n' ∧ Blank.isBlank d = false) ↔ v.KeepsEnd) := by
  rcases Yaml.ends_writeTree v none false .blank with ⟨b, d, r, hwritten, hkept⟩
  refine ⟨r.reverse, d, b, ?_, hkept⟩
  rw [toYaml, Yaml.toList_write, hwritten, List.reverse_cons, List.reverse_cons]

end DocTree
