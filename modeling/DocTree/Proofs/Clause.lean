import Mathlib
import DocTree.Path.Segment
import DocTree.Proofs.LastCharacter

/-!
# Selector Clauses

The grammar of a segment with a clause, read forwards: a key, two colons, a name of letters
and an argument in parentheses. A segment is read backwards, and the two agree, because read
from its end a text can be taken apart in one way at most. The argument goes back to the last
opening parenthesis, the name goes back as far as there are letters, and all that is before
the two colons is key.

So it does not matter whether a key is taken as short or as long as it can be. A key may hold
colons, parentheses or a clause of its own, and comes back from the text in which it is
followed by the clause of a selector.

## Main definitions

* `Segment.IsClause`: a text is a key, a name and an argument.

## Theorems

* `IsClause.clauseParts?`, `isClause_of_clauseParts?`: reading backwards follows the grammar.
* `IsClause.unique`: a text is taken apart in one way.
* `ofClause?_name`, `isClause_text`: what a selector is written as.
* `parse_follows_grammar`: which segments have a selector, and which one.
-/

namespace DocTree

namespace Segment

/-- The text is a key, two colons, a name of letters and an argument in parentheses. The key has
    at least one character and no line feed, and the argument has no parenthesis. -/
structure IsClause (raw key name argument : String) : Prop where
  text : raw = key ++ "::" ++ name ++ "(" ++ argument ++ ")"
  key_ne : key ≠ ""
  oneLine : '\n' ∉ key.toList
  name_ne : name ≠ ""
  letters : name.toList.all Char.isAlpha = true
  flat : '(' ∉ argument.toList ∧ ')' ∉ argument.toList

instance (raw key name argument : String) : Decidable (IsClause raw key name argument) :=
  decidable_of_iff
    (raw = key ++ "::" ++ name ++ "(" ++ argument ++ ")" ∧ key ≠ "" ∧ '\n' ∉ key.toList ∧
      name ≠ "" ∧ name.toList.all Char.isAlpha = true ∧
      '(' ∉ argument.toList ∧ ')' ∉ argument.toList)
    ⟨fun ⟨text, key_ne, oneLine, name_ne, letters, flat⟩ =>
      ⟨text, key_ne, oneLine, name_ne, letters, flat⟩,
    fun h => ⟨h.text, h.key_ne, h.oneLine, h.name_ne, h.letters, h.flat⟩⟩

/-! ## Taking a text apart -/

theorem not_isParenthesis {cs : List Char} (h : '(' ∉ cs ∧ ')' ∉ cs) (c : Char) (hc : c ∈ cs) :
    (!isParenthesis c) = true := by
  have hopen : c ≠ '(' := fun heq => h.1 (heq ▸ hc)
  have hclose : c ≠ ')' := fun heq => h.2 (heq ▸ hc)
  simp [isParenthesis, hopen, hclose]

/-- Read backwards, the parts end where the grammar says that they begin. -/
theorem IsClause.clauseParts? {raw key name argument : String}
    (h : IsClause raw key name argument) :
    clauseParts? raw.toList = some (key.toList, name.toList, argument.toList) := by
  have hargument : ∀ c ∈ argument.toList.reverse, (!isParenthesis c) = true :=
    fun c hc => not_isParenthesis h.flat c (List.mem_reverse.mp hc)
  have hletters : ∀ c ∈ name.toList.reverse, c.isAlpha = true :=
    fun c hc => List.all_eq_true.mp h.letters c (List.mem_reverse.mp hc)
  have hback : raw.toList.reverse = ')' :: (argument.toList.reverse ++
      '(' :: (name.toList.reverse ++ ':' :: ':' :: key.toList.reverse)) := by
    simp [h.text, String.toList_append]
  rw [Segment.clauseParts?, hback]
  -- The argument ends at the parenthesis and the name ends at the colon.
  have hopen : (argument.toList.reverse ++
      '(' :: (name.toList.reverse ++ ':' :: ':' :: key.toList.reverse)).dropWhile
        (!isParenthesis ·) = '(' :: (name.toList.reverse ++ ':' :: ':' :: key.toList.reverse) := by
    rw [List.dropWhile_append_of_pos hargument, List.dropWhile_cons_of_neg (by decide)]
  have hcolon : (name.toList.reverse ++ ':' :: ':' :: key.toList.reverse).dropWhile Char.isAlpha
      = ':' :: ':' :: key.toList.reverse := by
    rw [List.dropWhile_append_of_pos hletters, List.dropWhile_cons_of_neg (by decide)]
  simp only [hopen, hcolon]
  rw [List.takeWhile_append_of_pos hletters, List.takeWhile_cons_of_neg (by decide),
    List.takeWhile_append_of_pos hargument, List.takeWhile_cons_of_neg (by decide),
    if_pos ⟨by simpa using h.name_ne, by simpa using h.key_ne, by simpa using h.oneLine⟩]
  simp only [List.append_nil, List.reverse_reverse]

/-- What is read backwards follows the grammar. -/
theorem isClause_of_clauseParts? (raw : String) (key name argument : List Char)
    (h : clauseParts? raw.toList = some (key, name, argument)) :
    IsClause raw (String.ofList key) (String.ofList name) (String.ofList argument) := by
  revert h
  -- Only one way through the reader has a result. It has found both marks and all three parts.
  fun_cases clauseParts? raw.toList with
  | case1 r hback r' hopen back hcolon name' hparts =>
      intro h
      simp only [Option.some.injEq, Prod.mk.injEq] at h
      rcases h with ⟨rfl, rfl, rfl⟩
      have hargument := List.takeWhile_append_dropWhile (p := (!isParenthesis ·)) (l := r)
      have hname := List.takeWhile_append_dropWhile (p := Char.isAlpha) (l := r')
      have hplain : ∀ c ∈ (r.takeWhile (!isParenthesis ·)).reverse, (!isParenthesis c) = true :=
        fun c hc => List.mem_takeWhile_imp (p := (!isParenthesis ·)) (List.mem_reverse.mp hc)
      -- Put together again, the parts are the text from its end.
      have hraw : raw.toList = (')' :: (r.takeWhile (!isParenthesis ·) ++
          '(' :: (name' ++ ':' :: ':' :: back))).reverse := by
        rw [← hcolon, hname, ← hopen, hargument, ← hback, List.reverse_reverse]
      refine ⟨?_, by simpa using hparts.2.1, by simpa using hparts.2.2, by simpa using hparts.1,
        ?_, ?_⟩
      · rw [← String.toList_inj, hraw]
        simp [String.toList_append]
      · rw [String.toList_ofList, List.all_eq_true]
        exact fun c hc => List.mem_takeWhile_imp (List.mem_reverse.mp hc)
      · rw [String.toList_ofList]
        exact ⟨fun hc => absurd (hplain _ hc) (by decide),
          fun hc => absurd (hplain _ hc) (by decide)⟩
  | _ => exact fun h => absurd h (by simp)

/-- A text is taken apart in one way at most. -/
theorem IsClause.unique {raw key name argument key' name' argument' : String}
    (h : IsClause raw key name argument) (h' : IsClause raw key' name' argument') :
    key' = key ∧ name' = name ∧ argument' = argument := by
  have hparts := h'.clauseParts?
  rw [h.clauseParts?, Option.some.injEq, Prod.mk.injEq, Prod.mk.injEq] at hparts
  exact ⟨(String.toList_inj.mp hparts.1).symm, (String.toList_inj.mp hparts.2.1).symm,
    (String.toList_inj.mp hparts.2.2).symm⟩

/-! ## Segments -/

/-- A clause with a meaning gives the segment its key and its selector. -/
theorem parse_of_isClause {raw key name argument : String} {selector : Selector}
    (h : IsClause raw key name argument)
    (hselector : Selector.ofClause? name argument = some selector) :
    parse raw = ⟨key, some (selector, argument)⟩ := by
  rw [parse, h.clauseParts?]
  simp only [String.ofList_toList, hselector]

/-- A text that is no clause, or one without a meaning, is a key. -/
theorem parse_of_not_isClause {raw : String}
    (h : ∀ key name argument, IsClause raw key name argument →
      Selector.ofClause? name argument = none) : parse raw = literal raw := by
  rw [parse]
  split
  · rename_i key name argument hparts
    rw [h _ _ _ (isClause_of_clauseParts? raw key name argument hparts)]
  · rfl

end Segment

/-! ## What a selector is written as -/

namespace Selector

/-- The name of a selector in its clause. -/
def name : Selector → String
  | parent => "parent"
  | nthChild _ => "nthChild"
  | first => "first"
  | last => "last"

/-- The argument of a selector in its clause. -/
def argument : Selector → String
  | nthChild n => String.ofList (Decimal.ofInt n.toInt)
  | _ => ""

/-- A selector is written as its name and its argument in parentheses. -/
theorem text_eq (s : Selector) : s.text = s.name ++ "(" ++ s.argument ++ ")" := by
  cases s <;> rfl

end Selector

theorem Decimal.isDigit_or_of_mem_ofInt (i : Int) (c : Char) (h : c ∈ ofInt i) :
    c.isDigit = true ∨ c = '-' := by
  cases i with
  | ofNat n => exact Or.inl (isDigit_of_mem_ofNat n c h)
  | negSucc n =>
      rcases List.mem_cons.mp h with rfl | h
      · exact Or.inr rfl
      · exact Or.inl (isDigit_of_mem_ofNat (n + 1) c h)

/-- There are no blanks around a number. -/
theorem Decimal.trim_ofInt (i : Int) : Blank.trim (ofInt i) = ofInt i := by
  have hsolid : ∀ c ∈ ofInt i, Blank.isBlank c = false := by
    intro c hc
    rcases isDigit_or_of_mem_ofInt i c hc with hdigit | rfl
    · exact Blank.not_isBlank_of_isDigit c hdigit
    · decide
  -- Neither end is a blank, as no character is.
  have hstart : Blank.trimStart (ofInt i) = ofInt i := by
    rw [Blank.trimStart, List.dropWhile_eq_self_iff]
    intro hpos
    rw [hsolid _ (List.getElem_mem hpos)]
    exact Bool.false_ne_true
  rw [Blank.trim, hstart, Blank.trimEnd_of_endsSolid _ (endsSolid_ofInt i)]

namespace Selector

/-- What a selector is written as denotes it. -/
theorem ofClause?_name (s : Selector) : ofClause? s.name s.argument = some s := by
  cases s with
  | nthChild n =>
      have hname : String.ofList ("nthChild".toList.map Char.toLower) = "nthchild" := by decide
      simp only [ofClause?, name, hname, argument, String.toList_ofList, Decimal.trim_ofInt,
        Decimal.signed?_ofInt, Option.bind_some, (Decimal.int64?_eq_some_iff _ n).mpr rfl,
        Option.map_some]
  | _ => rfl

end Selector

namespace Segment

/-- A key, two colons and what a selector is written as are a clause. -/
theorem isClause_text (key : String) (s : Selector) (hkey : key ≠ "") (hline : '\n' ∉ key.toList) :
    IsClause (key ++ "::" ++ s.text) key s.name s.argument := by
  refine ⟨by simp only [s.text_eq, String.append_assoc], hkey, hline, ?_, ?_, ?_⟩
  · cases s <;> simp only [Selector.name] <;> decide
  · cases s <;> simp only [Selector.name] <;> decide
  · cases s with
    | nthChild n =>
        have hplain : ∀ c ∈ Decimal.ofInt n.toInt, c ≠ '(' ∧ c ≠ ')' := by
          intro c hc
          rcases Decimal.isDigit_or_of_mem_ofInt _ c hc with hdigit | rfl
          · exact ⟨fun h => absurd (h ▸ hdigit) (by decide),
              fun h => absurd (h ▸ hdigit) (by decide)⟩
          · decide
        rw [Selector.argument, String.toList_ofList]
        exact ⟨fun h => (hplain _ h).1 rfl, fun h => (hplain _ h).2 rfl⟩
    | _ => exact ⟨List.not_mem_nil, List.not_mem_nil⟩

/-- A segment has a selector exactly if it is a clause that denotes one, and then the clause gives
    its key, its selector and its argument. There is only one such clause. Otherwise the segment
    is a key as a whole. What a selector is written as can be put behind any key of one line, and
    both come back. -/
theorem parse_follows_grammar (raw : String) :
    ((parse raw).selector.isSome ↔ ∃ key name argument,
      IsClause raw key name argument ∧ (Selector.ofClause? name argument).isSome) ∧
    (∀ key name argument selector, IsClause raw key name argument →
      Selector.ofClause? name argument = some selector →
      (∀ key' name' argument', IsClause raw key' name' argument' →
        key' = key ∧ name' = name ∧ argument' = argument) ∧
      (parse raw).rawKey = key ∧ (parse raw).key = Key.parse key ∧
      (parse raw).selector = some selector ∧ (parse raw).argument = some argument) ∧
    ((parse raw).selector = none →
      (parse raw).rawKey = raw ∧ (parse raw).key = Key.parse raw ∧ (parse raw).argument = none) ∧
    (∀ key s, key ≠ "" → '\n' ∉ key.toList →
      (parse (key ++ "::" ++ Selector.text s)).rawKey = key ∧
      (parse (key ++ "::" ++ Selector.text s)).selector = some s) := by
  have hnone : (∀ key name argument, IsClause raw key name argument →
      Selector.ofClause? name argument = none) → parse raw = literal raw := parse_of_not_isClause
  refine ⟨⟨fun h => ?_, ?_⟩, fun key name argument selector h hselector => ?_, fun h => ?_,
    fun key s hkey hline => ?_⟩
  · by_contra hno
    -- Without a clause that denotes a selector the segment would be a key.
    push Not at hno
    rw [hnone fun key name argument hclause => by simpa using hno key name argument hclause] at h
    exact absurd h (by simp [literal, selector])
  · rintro ⟨key, name, argument, h, hsome⟩
    rcases Option.isSome_iff_exists.mp hsome with ⟨selector, hselector⟩
    rw [parse_of_isClause h hselector]
    rfl
  · rw [parse_of_isClause h hselector]
    exact ⟨fun _ _ _ h' => h.unique h', rfl, rfl, rfl, rfl⟩
  · have hliteral : parse raw = literal raw := by
      refine hnone fun key name argument hclause => ?_
      by_contra hsome
      rcases Option.ne_none_iff_exists'.mp hsome with ⟨selector, hselector⟩
      rw [parse_of_isClause hclause hselector] at h
      exact absurd h (by simp [Segment.selector])
    rw [hliteral]
    exact ⟨rfl, rfl, rfl⟩
  · rw [parse_of_isClause (isClause_text key s hkey hline) s.ofClause?_name]
    exact ⟨rfl, rfl⟩

/-- The last clause is the selector, and a clause before it is part of the key. -/
theorem parse_of_two_clauses :
    let raw := "a::first()::NTHchild( +2 )"
    IsClause raw "a::first()" "NTHchild" " +2 " ∧
      Selector.ofClause? "NTHchild" " +2 " = some (.nthChild 2) ∧
      (parse raw).rawKey = "a::first()" ∧ (parse raw).selector = some (.nthChild 2) ∧
      (parse ("a::first()" ++ "::" ++ Selector.text .last)).rawKey = "a::first()" := by
  intro raw
  have hclause : IsClause raw "a::first()" "NTHchild" " +2 " := by decide +kernel
  have hselector : Selector.ofClause? "NTHchild" " +2 " = some (.nthChild 2) := by
    decide +kernel
  rcases (parse_follows_grammar raw).2.1 _ _ _ _ hclause hselector with ⟨_, hkey, _, hfound, _⟩
  exact ⟨hclause, hselector, hkey, hfound,
    ((parse_follows_grammar raw).2.2.2 "a::first()" .last (by decide) (by decide)).1⟩

end Segment

end DocTree
