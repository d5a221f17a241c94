import Mathlib
import DocTree.Json.Writer
import DocTree.Proofs.Json.Number
import DocTree.Proofs.Normal

/-!
# Reading Back What Was Written

Reading the JSON text of a value gives the tree that was written, compact or indented,
with null in the place of the floats that are not finite.

The writer works on a tree and the reader on what is left of a text, so each part is
followed with a rest behind it: a string up to its closing quote, a number up to a mark,
the items of a list and the members of an object up to the closing bracket. Of floats it
is assumed that each, written alone, is read back; that carries over to every place in a
document.

## Main definitions

* `Json.Reads`: a text that is read as a tree, whatever follows it in a document.
* `Json.ReadsBack`: a float whose text is read as the float.
* `Json.keptFloat`: the floats that have a text.

## Theorems

* `string_writeString`: strings are read back.
* `listItems_behindCommas`, `objectMembers_behindCommas`: the loops of the reader.
* `reads_list`, `reads_object`, `reads_float`: one level of a document.
* `reads_writeAt`, `parse_write`: whole documents.
-/

namespace DocTree

theorem Binary64.not_isNaN_of_isFinite (x : Binary64) (hx : x.isFinite = true) :
    ¬x.isNaN = true := by
  simp only [isFinite, isNaN, decide_eq_true_eq] at hx ⊢
  omega

namespace Json

/-! ## Strings -/

theorem hexDigit?_digitChar (n : Nat) (h : n < 16) : hexDigit? (Nat.digitChar n) = some n := by
  have hall : ∀ m < 16, hexDigit? (Nat.digitChar m) = some m := by decide
  exact hall n h

/-- A control character is read back from its number. -/
theorem unicodeEscape_of_control (n : Nat) (hn : n < 32) (cs : List Char) :
    unicodeEscape ('0' :: '0' :: Nat.digitChar (n / 16) :: Nat.digitChar (n % 16) :: cs)
      = .ok (Char.ofNat n, cs) := by
  have hlength := Utf8.length_le_byteLength
    ('0' :: '0' :: Nat.digitChar (n / 16) :: Nat.digitChar (n % 16) :: cs)
  simp only [List.length_cons] at hlength
  have hzero : hexDigit? '0' = some 0 := by decide
  have hnumber : ((0 * 16 + 0) * 16 + n / 16) * 16 + n % 16 = n := by omega
  have hhex : hex4 ('0' :: '0' :: Nat.digitChar (n / 16) :: Nat.digitChar (n % 16) :: cs)
      = .ok (n, cs) := by
    rw [hex4, if_neg (by omega)]
    simp only [hzero, hexDigit?_digitChar (n / 16) (by omega),
      hexDigit?_digitChar (n % 16) (by omega), hnumber]
  rw [unicodeEscape, hhex]
  simp only [Bind.bind, Except.bind]
  rw [if_neg (by omega), if_neg (by omega)]

theorem stringChars_escape (fuel : Nat) (cs rest rest' : List Char) (c : Char) (ds : List Char)
    (hescape : escape cs = .ok (c, rest)) (h : stringChars fuel rest = .ok (ds, rest')) :
    stringChars (fuel + 1) ('\\' :: cs) = .ok (c :: ds, rest') := by
  rw [stringChars, if_neg (by decide), if_pos rfl, hescape]
  simp only [Bind.bind, Except.bind, h]

/-- Each character is read back from the way it is written. -/
theorem stringChars_writeChar (fuel : Nat) (c : Char) (cs ds rest : List Char)
    (h : stringChars fuel cs = .ok (ds, rest)) :
    stringChars (fuel + 1) (writeChar c ++ cs) = .ok (c :: ds, rest) := by
  -- Seven characters have an escape of their own, and each of these is read as the character.
  unfold writeChar
  split
  · exact stringChars_escape fuel _ cs rest _ ds rfl h
  · exact stringChars_escape fuel _ cs rest _ ds rfl h
  · exact stringChars_escape fuel _ cs rest _ ds rfl h
  · exact stringChars_escape fuel _ cs rest _ ds rfl h
  · exact stringChars_escape fuel _ cs rest _ ds rfl h
  · exact stringChars_escape fuel _ cs rest _ ds rfl h
  · exact stringChars_escape fuel _ cs rest _ ds rfl h
  · rename_i hquote hbackslash _ _ _ _ _
    split
    · -- The number of a control character has two hexadecimal digits.
      rename_i hcontrol
      have hcode : c.toNat < 32 := hcontrol
      have hunicode := unicodeEscape_of_control c.toNat hcode cs
      rw [Char.ofNat_toNat] at hunicode
      exact stringChars_escape fuel _ cs rest c ds hunicode h
    · rename_i hprintable
      rw [List.singleton_append, stringChars, if_neg hquote, if_neg hbackslash,
        if_neg hprintable]
      simp only [Bind.bind, Except.bind, h]

theorem length_le_flatMap_writeChar (cs : List Char) :
    cs.length ≤ (cs.flatMap writeChar).length := by
  induction cs with
  | nil => exact Nat.le_refl 0
  | cons c cs ih =>
      have hpos : 0 < (writeChar c).length := by
        unfold writeChar
        split <;> try exact Nat.succ_pos _
        split <;> exact Nat.succ_pos _
      rw [List.flatMap_cons, List.length_append, List.length_cons]
      omega

theorem stringChars_flatMap (fuel : Nat) (cs rest : List Char) (hfuel : cs.length < fuel) :
    stringChars fuel (cs.flatMap writeChar ++ '"' :: rest) = .ok (cs, rest) := by
  -- Induction on the characters, each of which is written as at least one and takes one unit of
  -- fuel.
  induction cs generalizing fuel with
  | nil =>
      cases fuel with
      | zero => exact absurd hfuel (Nat.not_lt_zero _)
      | succ fuel => rfl
  | cons c cs ih =>
      cases fuel with
      | zero => exact absurd hfuel (Nat.not_lt_zero _)
      | succ fuel =>
          rw [List.flatMap_cons, List.append_assoc]
          exact stringChars_writeChar fuel c _ cs rest (ih fuel (Nat.lt_of_succ_lt_succ hfuel))

/-- A string is read back, up to its closing quote. -/
theorem string_writeString (s : String) (rest : List Char) :
    string (s.toList.flatMap writeChar ++ '"' :: rest) = .ok (s, rest) := by
  have hlength := length_le_flatMap_writeChar s.toList
  rw [string, stringChars_flatMap _ s.toList rest (by
    rw [List.length_append]
    omega)]
  simp only [Bind.bind, Except.bind, String.ofList_toList]

/-! ## Brackets -/

/-- A text that begins a value: no space comes first, and no closing bracket. -/
def Opens (cs : List Char) : Prop :=
  ∃ c r, cs = c :: r ∧ isSpace c = false ∧ c ≠ ']' ∧ c ≠ '\x7d'

/-- Nothing but space. -/
def Blank (ws : List Char) : Prop :=
  ∀ c ∈ ws, isSpace c = true

theorem skipSpace_append (ws cs : List Char) (hws : Blank ws) :
    skipSpace (ws ++ cs) = skipSpace cs :=
  List.dropWhile_append_of_pos hws

theorem skipSpace_of_not_isSpace (c : Char) (cs : List Char) (hc : isSpace c = false) :
    skipSpace (c :: cs) = c :: cs :=
  List.dropWhile_cons_of_neg (by simp [hc])

section

variable (item : List Char → Read (Tree × List Char)) (fuel : Nat)

theorem listItems_close (first : Bool) (ws rest : List Char) (hws : Blank ws) :
    listItems item (fuel + 1) first (ws ++ ']' :: rest) = .ok ([], rest) := by
  rw [listItems, skipSpace_append ws _ hws, skipSpace_of_not_isSpace ']' rest (by decide)]
  rfl

theorem listItems_first (ws cs r r' : List Char) (t : Tree) (ts : List Tree) (hws : Blank ws)
    (hcs : Opens cs) (hitem : item cs = .ok (t, r))
    (hrest : listItems item fuel false r = .ok (ts, r')) :
    listItems item (fuel + 1) true (ws ++ cs) = .ok (t :: ts, r') := by
  rcases hcs with ⟨c, tail, rfl, hspace, hclose, _⟩
  rw [listItems, skipSpace_append ws _ hws, skipSpace_of_not_isSpace c tail hspace]
  split
  · rename_i heq
    exact absurd heq (by simp)
  · rename_i heq
    exact absurd (List.cons.inj heq).1 hclose
  · rename_i heq
    rw [← heq, if_pos rfl]
    simp only [Bind.bind, Except.bind, hitem, hrest]

/-- After the first, an item comes behind a comma. -/
theorem listItems_next (ws cs r r' : List Char) (t : Tree) (ts : List Tree) (hws : Blank ws)
    (hcs : Opens cs) (hitem : item cs = .ok (t, r))
    (hrest : listItems item fuel false r = .ok (ts, r')) :
    listItems item (fuel + 1) false (',' :: (ws ++ cs)) = .ok (t :: ts, r') := by
  rcases hcs with ⟨c, tail, rfl, hspace, hclose, _⟩
  rw [listItems, skipSpace_of_not_isSpace ',' _ (by decide)]
  split
  · rename_i heq
    exact absurd heq (by simp)
  · rename_i heq
    exact absurd (List.cons.inj heq).1 (by decide)
  · rename_i heq
    injection heq with hcomma hrest'
    subst hcomma hrest'
    rw [if_neg (by simp), if_pos rfl, skipSpace_append ws _ hws,
      skipSpace_of_not_isSpace c tail hspace]
    split
    · rename_i heq
      exact absurd heq (by simp)
    · rename_i heq
      exact absurd (List.cons.inj heq).1 hclose
    · simp only [Bind.bind, Except.bind, hitem, hrest]

theorem objectMembers_close (first : Bool) (ws rest : List Char) (hws : Blank ws) :
    objectMembers item (fuel + 1) first (ws ++ '\x7d' :: rest) = .ok ([], rest) := by
  rw [objectMembers, skipSpace_append ws _ hws, skipSpace_of_not_isSpace '\x7d' rest (by decide)]
  rfl

/-- A member from its quote on: its name, the colon, its value, and the members that follow. -/
def member (cs : List Char) : Read (List (String × Tree) × List Char) := do
  let (s, rest) ← string cs
  let rest ← colon rest
  let (t, rest) ← item rest
  let (ms, rest) ← objectMembers item fuel false rest
  .ok ((s, t) :: ms, rest)

theorem objectMembers_first (ws cs : List Char) (hws : Blank ws) :
    objectMembers item (fuel + 1) true (ws ++ '"' :: cs) = member item fuel cs := by
  rw [objectMembers, skipSpace_append ws _ hws, skipSpace_of_not_isSpace '"' cs (by decide)]
  rfl

/-- After the first, a member comes behind a comma. -/
theorem objectMembers_next (ws cs : List Char) (hws : Blank ws) :
    objectMembers item (fuel + 1) false (',' :: (ws ++ '"' :: cs)) = member item fuel cs := by
  rw [objectMembers, skipSpace_of_not_isSpace ',' _ (by decide)]
  split
  · rename_i heq
    exact absurd heq (by simp)
  · rename_i heq
    exact absurd (List.cons.inj heq).1 (by decide)
  · rename_i heq
    injection heq with hcomma hrest
    subst hcomma hrest
    rw [if_neg (by simp), if_pos rfl, skipSpace_append ws _ hws,
      skipSpace_of_not_isSpace '"' cs (by decide)]
    rfl

end

/-! ## Pieces between brackets -/

theorem Opens.append (cs rest : List Char) (h : Opens cs) : Opens (cs ++ rest) := by
  rcases h with ⟨c, r, rfl, hc⟩
  exact ⟨c, r ++ rest, rfl, hc⟩

/-- No number goes on with space. -/
theorem delimits_of_isSpace (c : Char) (h : isSpace c = true) :
    c.isDigit = false ∧ c ≠ '.' ∧ c ≠ 'e' ∧ c ≠ 'E' := by
  simp only [isSpace, Bool.or_eq_true, decide_eq_true_eq] at h
  rcases h with ((rfl | rfl) | rfl) | rfl <;> decide

/-- What follows an item: a comma, or space and the closing bracket. -/
theorem delimited_of_mark (ws rest : List Char) (c : Char) (hws : Blank ws)
    (hc : c.isDigit = false ∧ c ≠ '.' ∧ c ≠ 'e' ∧ c ≠ 'E') : Delimited (ws ++ c :: rest) := by
  intro d hd
  cases ws with
  | nil =>
      rw [List.nil_append, List.head?_cons, Option.mem_some] at hd
      rwa [← hd]
  | cons w ws =>
      rw [List.cons_append, List.head?_cons, Option.mem_some] at hd
      rw [← hd]
      exact delimits_of_isSpace w (hws w List.mem_cons_self)

/-- Pieces that each come behind a comma. -/
def behindCommas (nl : List Char) (pieces : List (List Char)) : List Char :=
  pieces.flatMap fun piece => ',' :: (nl ++ piece)

theorem intercalate_cons (nl piece : List Char) (pieces : List (List Char)) :
    (',' :: nl).intercalate (piece :: pieces) = piece ++ behindCommas nl pieces := by
  induction pieces generalizing piece with
  | nil => simp [List.intercalate, behindCommas]
  | cons next pieces ih =>
      have hrest := ih next
      simp only [List.intercalate, behindCommas] at hrest ⊢
      simp [hrest]

theorem length_le_behindCommas (nl : List Char) (pieces : List (List Char)) :
    pieces.length ≤ (behindCommas nl pieces).length := by
  induction pieces with
  | nil => exact Nat.le_refl 0
  | cons piece pieces ih =>
      rw [behindCommas] at ih ⊢
      rw [List.flatMap_cons, List.length_append, List.length_cons, List.length_cons]
      omega

theorem delimited_behindCommas (nl ws rest : List Char) (pieces : List (List Char)) (c : Char)
    (hws : Blank ws) (hc : c.isDigit = false ∧ c ≠ '.' ∧ c ≠ 'e' ∧ c ≠ 'E') :
    Delimited (behindCommas nl pieces ++ (ws ++ c :: rest)) := by
  cases pieces with
  | nil => exact delimited_of_mark ws rest c hws hc
  | cons piece pieces =>
      have hnil : Blank [] := fun c hc => absurd hc List.not_mem_nil
      exact delimited_of_mark [] _ ',' hnil (by decide)

theorem blank_newline (pretty : Bool) (level : Nat) : Blank (newline pretty level) := by
  intro c hc
  unfold newline at hc
  split at hc
  · rcases List.mem_cons.mp hc with rfl | hc
    · decide
    · rw [(List.mem_replicate.mp hc).2]
      decide
  · exact absurd hc List.not_mem_nil

theorem bracketed_cons (pretty : Bool) (level : Nat) (opening closing : Char)
    (piece : List Char) (pieces : List (List Char)) (rest : List Char) :
    bracketed pretty level opening closing (piece :: pieces) ++ rest
      = opening :: (newline pretty (level + 1) ++ (piece
          ++ (behindCommas (newline pretty (level + 1)) pieces
            ++ (newline pretty level ++ closing :: rest)))) := by
  rw [bracketed, if_neg (by simp), intercalate_cons]
  simp only [List.append_assoc, List.cons_append, List.nil_append]

section

variable (item : List Char → Read (Tree × List Char))

/-- Of this text the reader makes this tree, whatever follows it in a document. -/
def Reads (cs : List Char) (t : Tree) : Prop :=
  Opens cs ∧ ∀ rest, Delimited rest → item (cs ++ rest) = .ok (t, rest)

/-- Of this text the reader makes this member, in front of those that follow. -/
def ReadsMember (cs : List Char) (m : String × Tree) : Prop :=
  ∃ r, cs = '"' :: r ∧ ∀ fuel rest rest' ms, Delimited rest →
    objectMembers item fuel false rest = .ok (ms, rest') →
      member item fuel (r ++ rest) = .ok (m :: ms, rest')

theorem listItems_behindCommas (nl ws rest : List Char) (hnl : Blank nl) (hws : Blank ws)
    (pieces : List (List Char)) (ts : List Tree) (h : List.Forall₂ (Reads item) pieces ts)
    (fuel : Nat) (hfuel : pieces.length < fuel) :
    listItems item fuel false (behindCommas nl pieces ++ (ws ++ ']' :: rest))
      = .ok (ts, rest) := by
  induction h generalizing fuel with
  | nil =>
      cases fuel with
      | zero => exact absurd hfuel (Nat.not_lt_zero _)
      | succ fuel => exact listItems_close item fuel false ws rest hws
  | @cons piece t pieces ts hpiece _ ih =>
      cases fuel with
      | zero => exact absurd hfuel (Nat.not_lt_zero _)
      | succ fuel =>
          have hsplit : behindCommas nl (piece :: pieces) ++ (ws ++ ']' :: rest)
              = ',' :: (nl ++ (piece ++ (behindCommas nl pieces ++ (ws ++ ']' :: rest)))) := by
            simp [behindCommas]
          rw [hsplit]
          -- Behind the piece there is a mark, so a number in it ends there.
          exact listItems_next item fuel nl _ _ rest t ts hnl (hpiece.1.append _ _)
            (hpiece.2 _ (delimited_behindCommas nl ws rest pieces ']' hws (by decide)))
            (ih fuel (Nat.lt_of_succ_lt_succ hfuel))

theorem objectMembers_behindCommas (nl ws rest : List Char) (hnl : Blank nl) (hws : Blank ws)
    (pieces : List (List Char)) (ms : List (String × Tree))
    (h : List.Forall₂ (ReadsMember item) pieces ms) (fuel : Nat)
    (hfuel : pieces.length < fuel) :
    objectMembers item fuel false (behindCommas nl pieces ++ (ws ++ '\x7d' :: rest))
      = .ok (ms, rest) := by
  -- As for the items: one member takes one unit of fuel.
  induction h generalizing fuel with
  | nil =>
      cases fuel with
      | zero => exact absurd hfuel (Nat.not_lt_zero _)
      | succ fuel => exact objectMembers_close item fuel false ws rest hws
  | @cons piece m pieces ms hpiece _ ih =>
      cases fuel with
      | zero => exact absurd hfuel (Nat.not_lt_zero _)
      | succ fuel =>
          rcases hpiece with ⟨r, rfl, hmember⟩
          have hsplit : behindCommas nl (('"' :: r) :: pieces) ++ (ws ++ '\x7d' :: rest)
              = ',' :: (nl ++ '"' ::
                  (r ++ (behindCommas nl pieces ++ (ws ++ '\x7d' :: rest)))) := by
            simp [behindCommas]
          rw [hsplit, objectMembers_next item fuel nl _ hnl]
          exact hmember fuel _ rest ms
            (delimited_behindCommas nl ws rest pieces '\x7d' hws (by decide))
            (ih fuel (Nat.lt_of_succ_lt_succ hfuel))

end

/-! ## Lists and objects -/

theorem value_append (n : Nat) (ws cs : List Char) (hws : Blank ws) :
    value n (ws ++ cs) = value n cs := by
  rw [value, value, skipSpace_append ws cs hws]

theorem value_list (n : Nat) (r rest : List Char) (ts : List Tree)
    (h : listItems (value n) (r.length + 1) true r = .ok (ts, rest)) :
    value (n + 1) ('[' :: r) = .ok (.list ts, rest) := by
  have hopen : value (n + 1) ('[' :: r)
      = (listItems (value n) (r.length + 1) true r).bind fun p => .ok (.list p.1, p.2) := by
    rw [value, skipSpace_of_not_isSpace '[' r (by decide)]
    rfl
  rw [hopen, h]
  rfl

theorem value_object (n : Nat) (r rest : List Char) (ms : List (String × Tree))
    (h : objectMembers (value n) (r.length + 1) true r = .ok (ms, rest)) :
    value (n + 1) ('\x7b' :: r) = .ok (.object ms, rest) := by
  have hopen : value (n + 1) ('\x7b' :: r)
      = (objectMembers (value n) (r.length + 1) true r).bind fun p => .ok (.object p.1, p.2) := by
    rw [value, skipSpace_of_not_isSpace '\x7b' r (by decide)]
    rfl
  rw [hopen, h]
  rfl

theorem opens_bracketed (pretty : Bool) (level : Nat) (opening closing : Char)
    (pieces : List (List Char)) (h : isSpace opening = false ∧ opening ≠ ']' ∧ opening ≠ '\x7d') :
    Opens (bracketed pretty level opening closing pieces) := by
  unfold bracketed
  split
  · exact ⟨opening, _, rfl, h⟩
  · exact ⟨opening, _, rfl, h⟩

theorem reads_list (n : Nat) (pretty : Bool) (level : Nat) (pieces : List (List Char))
    (ts : List Tree) (h : List.Forall₂ (Reads (value n)) pieces ts) :
    Reads (value (n + 1)) (bracketed pretty level '[' ']' pieces) (.list ts) := by
  refine ⟨opens_bracketed pretty level '[' ']' pieces (by decide), fun rest _ => ?_⟩
  cases h with
  | nil =>
      have hnil : Blank [] := fun c hc => absurd hc List.not_mem_nil
      exact value_list n (']' :: rest) rest [] (listItems_close _ _ true [] rest hnil)
  | @cons piece t pieces ts hpiece hpieces =>
      have hnewline := blank_newline pretty (level + 1)
      rw [bracketed_cons]
      refine value_list n _ rest _ (listItems_first _ _ _ _ _ rest t ts hnewline
        (hpiece.1.append _ _) (hpiece.2 _ ?_) ?_)
      · exact delimited_behindCommas _ _ rest pieces ']' (blank_newline pretty level) (by decide)
      · refine listItems_behindCommas _ _ _ rest hnewline (blank_newline pretty level) pieces ts
          hpieces _ ?_
        -- Each piece has its comma, and the last is followed by the bracket.
        have hlength := length_le_behindCommas (newline pretty (level + 1)) pieces
        simp only [List.length_append, List.length_cons]
        omega

theorem reads_object (n : Nat) (pretty : Bool) (level : Nat) (pieces : List (List Char))
    (ms : List (String × Tree)) (h : List.Forall₂ (ReadsMember (value n)) pieces ms) :
    Reads (value (n + 1)) (bracketed pretty level '\x7b' '\x7d' pieces) (.object ms) := by
  refine ⟨opens_bracketed pretty level '\x7b' '\x7d' pieces (by decide), fun rest _ => ?_⟩
  cases h with
  | nil =>
      have hnil : Blank [] := fun c hc => absurd hc List.not_mem_nil
      exact value_object n ('\x7d' :: rest) rest [] (objectMembers_close _ _ true [] rest hnil)
  | @cons piece m pieces ms hpiece hpieces =>
      rcases hpiece with ⟨r, rfl, hmember⟩
      have hnewline := blank_newline pretty (level + 1)
      rw [bracketed_cons]
      refine value_object n _ rest _ ?_
      rw [List.cons_append, objectMembers_first _ _ _ _ hnewline]
      refine hmember _ _ rest ms ?_ ?_
      · exact delimited_behindCommas _ _ rest pieces '\x7d' (blank_newline pretty level)
          (by decide)
      · refine objectMembers_behindCommas _ _ _ rest hnewline (blank_newline pretty level) pieces
          ms hpieces _ ?_
        have hlength := length_le_behindCommas (newline pretty (level + 1)) pieces
        simp only [List.length_append, List.length_cons]
        omega

/-- A member is read if its value is. -/
theorem readsMember (n : Nat) (pretty : Bool) (s : String) (cs : List Char) (t : Tree)
    (h : Reads (value n) cs t) :
    ReadsMember (value n)
      (writeString s ++ (if pretty then [':', ' '] else [':']) ++ cs) (s, t) := by
  -- Indented, there is a space behind the colon.
  have hmark : ∃ ws, Blank ws ∧ (if pretty then [':', ' '] else [':']) = ':' :: ws := by
    cases pretty with
    | false => exact ⟨[], fun c hc => absurd hc List.not_mem_nil, rfl⟩
    | true => exact ⟨[' '], fun c hc => by rw [List.mem_singleton.mp hc]; decide, rfl⟩
  rcases hmark with ⟨ws, hws, hmark⟩
  refine ⟨s.toList.flatMap writeChar ++ '"' :: ':' :: (ws ++ cs), ?_,
    fun fuel rest rest' ms hrest hms => ?_⟩
  · simp [writeString, hmark]
  · have hcolon : colon (':' :: (ws ++ (cs ++ rest))) = .ok (ws ++ (cs ++ rest)) := by
      rw [colon, skipSpace_of_not_isSpace ':' _ (by decide)]
      rfl
    have hvalue : value n (ws ++ (cs ++ rest)) = .ok (t, rest) := by
      rw [value_append n ws _ hws, h.2 rest hrest]
    rw [List.append_assoc, List.cons_append, List.cons_append, List.append_assoc, member,
      string_writeString]
    simp only [Bind.bind, Except.bind, hcolon, hvalue, hms]

/-! ## Scalars -/

theorem reads_null (n : Nat) : Reads (value n) "null".toList .null := by
  refine ⟨⟨'n', _, rfl, by decide⟩, fun rest _ => ?_⟩
  exact value_of_head n 'n' _ (by decide) (by decide) (by decide)

theorem reads_bool (n : Nat) (b : Bool) :
    Reads (value n) (if b then "true".toList else "false".toList) (.bool b) := by
  cases b with
  | false =>
      refine ⟨⟨'f', _, rfl, by decide⟩, fun rest _ => ?_⟩
      exact value_of_head n 'f' _ (by decide) (by decide) (by decide)
  | true =>
      refine ⟨⟨'t', _, rfl, by decide⟩, fun rest _ => ?_⟩
      exact value_of_head n 't' _ (by decide) (by decide) (by decide)

theorem reads_string (n : Nat) (s : String) : Reads (value n) (writeString s) (.string s) := by
  refine ⟨⟨'"', _, rfl, by decide⟩, fun rest _ => ?_⟩
  have hstring := string_writeString s rest
  have hvalue : value n (writeString s ++ rest)
      = (string (s.toList.flatMap writeChar ++ '"' :: rest)).bind
          fun p => .ok (.string p.1, p.2) := by
    rw [writeString, List.cons_append, List.cons_append, List.append_assoc,
      value_of_head n '"' _ (by decide) (by decide) (by decide)]
    rfl
  rw [hvalue, hstring]
  rfl

theorem opens_of_isDigit (c : Char) (r : List Char) (hc : c.isDigit = true) :
    Opens (c :: r) :=
  ⟨c, r, rfl, isSpace_of_isDigit c hc, ne_of_isDigit c hc ']' rfl, ne_of_isDigit c hc '\x7d' rfl⟩

theorem opens_minus (r : List Char) : Opens ('-' :: r) :=
  ⟨'-', r, rfl, by decide⟩

theorem reads_int (n : Nat) (i : Int64) :
    Reads (value n) (Decimal.ofInt i.toInt) (.integer i.toInt) := by
  refine ⟨?_, fun rest hrest => value_ofInt hrest n i⟩
  cases i.toInt with
  | ofNat m =>
      cases hdigits : Decimal.ofNat m with
      | nil => exact absurd hdigits Nat.toDigits_ne_nil
      | cons c cs =>
          rw [Decimal.ofInt, hdigits]
          exact opens_of_isDigit c cs (Decimal.isDigit_of_mem_ofNat m c (by rw [hdigits]; simp))
  | negSucc m => exact opens_minus _

/-! ## Floats -/

/-- The text of a float, alone, is read as the float. -/
def ReadsBack (x : Binary64) : Prop :=
  value 0 (x.text floats).toList = .ok (.float x, [])

/-- The outcome of reading is a float, to the end. -/
def isFloat (x : Binary64) : Read (Tree × List Char) → Bool
  | .ok (.float y, []) => y = x
  | _ => false

theorem isFloat_iff (x : Binary64) (outcome : Read (Tree × List Char)) :
    isFloat x outcome = true ↔ outcome = .ok (.float x, []) := by
  constructor
  · intro h
    unfold isFloat at h
    split at h
    · rw [of_decide_eq_true h]
    · exact absurd h (by simp)
  · rintro rfl
    exact decide_eq_true rfl

instance (x : Binary64) : Decidable (ReadsBack x) :=
  decidable_of_iff _ (isFloat_iff x (value 0 (x.text floats).toList))

theorem isDigit_head_layOut (l : Binary64.Layout) (d : Char) (ds : List Char) (p : Int)
    (hd : d.isDigit = true) :
    ∃ c r, Binary64.layOut l (d :: ds) p = c :: r ∧ c.isDigit = true := by
  simp only [Binary64.layOut]
  split
  · split
    · exact ⟨d, _, rfl, hd⟩
    · split
      · exact ⟨d, _, rfl, hd⟩
      · exact ⟨'0', _, rfl, rfl⟩
  · split
    · exact ⟨d, _, rfl, hd⟩
    · exact ⟨d, _, rfl, hd⟩

/-- The text of a finite float begins like a number. -/
theorem head_text (l : Binary64.Layout) (x : Binary64) (hx : x.isFinite = true) :
    ∃ c r, (x.text l).toList = c :: r ∧ (c = '-' ∨ c.isDigit = true) := by
  have hnan := x.not_isNaN_of_isFinite hx
  -- Without its sign the text begins with a digit, whether it is that of zero or not.
  have hbody : ∃ c r, c.isDigit = true ∧ ∀ sign : List Char,
      (if x.magnitude = 0 then String.ofList (sign ++ ['0', '.', '0'])
        else String.ofList (sign ++ Binary64.layOut l (Decimal.ofNat x.shortest.1) x.shortest.2))
      = String.ofList (sign ++ c :: r) := by
    split
    · exact ⟨'0', _, rfl, fun _ => rfl⟩
    · cases hdigits : Decimal.ofNat x.shortest.1 with
      | nil => exact absurd hdigits Nat.toDigits_ne_nil
      | cons d ds =>
          have hd := Decimal.isDigit_of_mem_ofNat x.shortest.1 d (by rw [hdigits]; simp)
          rcases isDigit_head_layOut l d ds x.shortest.2 hd with ⟨c, r, hcr, hc⟩
          exact ⟨c, r, hc, fun sign => by rw [hcr]⟩
  rcases hbody with ⟨c, r, hc, hbody⟩
  have htext : x.text l = String.ofList ((if x.negative then ['-'] else []) ++ c :: r) := by
    rw [Binary64.text, if_neg hnan, if_neg (by simp [hx])]
    exact hbody _
  rw [htext, String.toList_ofList]
  split
  · exact ⟨'-', _, rfl, Or.inl rfl⟩
  · exact ⟨c, r, rfl, Or.inr hc⟩

/-- A float that is read back alone is read back in any document. -/
theorem reads_float (n : Nat) (x : Binary64) (hx : x.isFinite = true) (hread : ReadsBack x) :
    Reads (value n) (x.text floats).toList (.float x) := by
  rcases head_text floats x hx with ⟨c, r, htext, hc⟩
  rw [ReadsBack, htext] at hread
  rw [htext]
  -- Numbers do not nest, so room for no bracket at all is as good as any other.
  rcases hc with rfl | hc
  · refine ⟨opens_minus r, fun rest hrest => ?_⟩
    rw [value_minus] at hread
    rw [List.cons_append, value_minus]
    exact number_append hrest true r _ [] hread
  · refine ⟨opens_of_isDigit c r hc, fun rest hrest => ?_⟩
    rw [value_digit 0 c r hc] at hread
    rw [List.cons_append, value_digit n c _ hc]
    exact number_append hrest false (c :: r) _ [] hread

theorem text_of_not_isFinite (x : Binary64) (hx : x.isFinite = false) : x.text floats = "null" := by
  rw [Binary64.text]
  split
  · rfl
  · rw [if_pos (by simp [hx])]
    split <;> rfl

/-- A float that is not finite is not read back: its text is that of null. -/
theorem isFinite_of_readsBack (x : Binary64) (h : ReadsBack x) : x.isFinite = true := by
  by_contra hx
  have hnull := (reads_null 0).2 [] fun c hc => absurd hc (by simp)
  rw [List.append_nil] at hnull
  rw [ReadsBack, text_of_not_isFinite x (by simpa using hx), hnull] at h
  exact absurd h (by simp)

/-! ## Documents -/

/-- JSON keeps the floats that are finite. -/
def keptFloat (x : Binary64) : Option Binary64 :=
  if x.isFinite then some x else none

theorem keptFloat_of_isFinite (x : Binary64) (hx : x.isFinite = true) : keptFloat x = some x := by
  rw [keptFloat, if_pos hx]

theorem keptFloat_of_not_isFinite (x : Binary64) (hx : ¬x.isFinite = true) :
    keptFloat x = none := by
  rw [keptFloat, if_neg hx]

theorem isFinite_of_keptFloat (x y : Binary64) (h : keptFloat x = some y) :
    y.isFinite = true ∧ x = y := by
  rw [keptFloat] at h
  split at h
  · rename_i hx
    rw [← Option.some.inj h]
    exact ⟨hx, rfl⟩
  · exact absurd h (by simp)

theorem isSequence_mapFloatsEntries (g : Binary64 → Option Binary64) (c : Entries Value) :
    Entries.isSequence (Value.mapFloatsEntries g c) = Entries.isSequence c := by
  -- For the induction, the count starts anywhere.
  have hfrom : ∀ n, Entries.sequenceFrom n (Value.mapFloatsEntries g c)
      = Entries.sequenceFrom n c := by
    induction c with
    | nil => exact fun n => rfl
    | cons e c ih => exact fun n => congrArg (_ && ·) (ih (n + 1))
  exact hfrom 0

/-- What is written for a value is read, at any place with room for its nesting. -/
theorem reads_writeAt (pretty : Bool) (v : Value) (n level : Nat) (hdepth : v.depth ≤ n)
    (hfloats : ∀ x ∈ v.floats, x.isFinite = true → ReadsBack x) :
    Reads (value n) (writeAt pretty level (Tree.ofValue v))
      (Tree.ofValue (v.mapFloats keptFloat)) := by
  -- Entries are followed both as the items of a list and as the members of an object, since
  -- only their container decides between the two. A container takes one level of nesting.
  refine (Value.induction
    (P := fun v => ∀ n level, v.depth ≤ n → (∀ x ∈ v.floats, x.isFinite = true → ReadsBack x) →
      Reads (value n) (writeAt pretty level (Tree.ofValue v))
        (Tree.ofValue (v.mapFloats keptFloat)))
    (Q := fun c => ∀ n level, Value.entriesDepth c ≤ n →
      (∀ x ∈ Value.entriesFloats c, x.isFinite = true → ReadsBack x) →
      List.Forall₂ (Reads (value n)) (writeItems pretty level (Tree.ofValues c))
          (Tree.ofValues (Value.mapFloatsEntries keptFloat c)) ∧
        List.Forall₂ (ReadsMember (value n)) (writeMembers pretty level (Tree.ofEntries c))
          (Tree.ofEntries (Value.mapFloatsEntries keptFloat c)))
    (fun v hv n level _ hfloats => ?_) (fun c hc n level hdepth hfloats => ?_)
    (fun n level _ _ => ⟨.nil, .nil⟩)
    fun key v c hv hc n level hdepth hfloats => ?_).1 v n level hdepth hfloats
  · cases v with
    | null => exact reads_null n
    | bool b => exact reads_bool n b
    | int i => exact reads_int n i
    | float x =>
        rw [Value.mapFloats, Tree.ofValue, writeAt]
        by_cases hx : x.isFinite = true
        · rw [keptFloat_of_isFinite x hx]
          exact reads_float n x hx (hfloats x (List.mem_singleton_self x) hx)
        · rw [keptFloat_of_not_isFinite x hx, text_of_not_isFinite x (by simpa using hx)]
          exact reads_null n
    | string s => exact reads_string n s
    | container c => exact absurd hv (by simp [Value.isContainer])
  · cases n with
    | zero => exact absurd hdepth (Nat.not_succ_le_zero _)
    | succ n =>
        have hentries := hc n (level + 1) (Nat.le_of_succ_le_succ hdepth) hfloats
        rw [Tree.ofValue, Value.mapFloats, Tree.ofValue, isSequence_mapFloatsEntries]
        split
        · exact reads_list n pretty level _ _ hentries.1
        · exact reads_object n pretty level _ _ hentries.2
  · rw [Value.entriesDepth, Nat.max_le] at hdepth
    rw [Value.entriesFloats, List.forall_mem_append] at hfloats
    have hvalue := hv n level hdepth.1 hfloats.1
    have hentries := hc n level hdepth.2 hfloats.2
    exact ⟨.cons hvalue hentries.1,
      .cons (readsMember n pretty key.text _ _ hvalue) hentries.2⟩

/-- The text of a value is read as the tree that was written, but for floats that are not
    finite. -/
theorem parse_write (pretty : Bool) (v : Value) (hdepth : v.depth ≤ maxNesting)
    (hfloats : ∀ x ∈ v.floats, x.isFinite = true → ReadsBack x) :
    parse (write pretty (Tree.ofValue v)) = .ok (Tree.ofValue (v.mapFloats keptFloat)) := by
  have hnil : Delimited [] := fun c hc => absurd hc (by simp)
  have hread := (reads_writeAt pretty v maxNesting 0 hdepth hfloats).2 [] hnil
  rw [List.append_nil] at hread
  rw [parse, write, String.toList_ofList]
  simp only [hread]
  rfl

end Json

end DocTree
