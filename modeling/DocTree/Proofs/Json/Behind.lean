import Mathlib
import DocTree.Json.Reader
import DocTree.Proofs.Json.RoundTrip

/-!
# What Stands Behind a Text

A text that is read is read the same way with more behind it, and what is behind it is left
over. Only a number could go on into what follows, so that has to begin with something
that no number goes on with.

The loops of the reader get more fuel when there is more behind, so each of them is
compared with itself at any larger amount.

## Main definitions

* `Json.Carries`: reading is the same with more behind.

## Theorems

* `carries_string`, `carries_scalar`, `carries_value`: the parts of the reader.
* `parse_append`: space behind a whole text makes no difference.
-/

namespace DocTree

namespace Json

/-- Two readings, one after the other, succeed if both do. -/
theorem bind_eq_ok {α β : Type} {x : Read α} {f : α → Read β} {b : β} (h : x >>= f = .ok b) :
    ∃ a, x = .ok a ∧ f a = .ok b := by
  cases x with
  | error e => exact absurd h (by simp [Bind.bind, Except.bind])
  | ok a => exact ⟨a, rfl, h⟩

theorem bind_ok {α β : Type} (a : α) (f : α → Read β) : (Except.ok a : Read α) >>= f = f a := rfl

/-- What the one reads from a text, the other reads with more behind, and leaves that over. -/
def Carries {α : Type} (more : List Char) (read read' : List Char → Read (α × List Char)) :
    Prop :=
  ∀ cs a r, read cs = .ok (a, r) → read' (cs ++ more) = .ok (a, r ++ more)

/-- Space is skipped up to the same character. -/
theorem skipSpace_cons_append (cs more : List Char) (c : Char) (r : List Char)
    (h : skipSpace cs = c :: r) : skipSpace (cs ++ more) = c :: (r ++ more) := by
  rw [skipSpace, List.dropWhile_append, if_neg, show cs.dropWhile isSpace = c :: r from h,
    List.cons_append]
  rw [show cs.dropWhile isSpace = c :: r from h]
  simp

section

variable (more : List Char)

/-! ## Strings -/

theorem carries_hex4 : Carries more hex4 hex4 := by
  intro cs n r h
  have hlength := Utf8.byteLength_append cs more
  unfold hex4 at h ⊢
  -- Four digits are there already, so it does not matter that there is more.
  by_cases hshort : Utf8.byteLength cs < 4
  · rw [if_pos hshort] at h
    exact absurd h (by simp)
  · rw [if_neg hshort] at h
    rw [if_neg (by omega)]
    dsimp only at h ⊢
    split at h
    · split at h
      · rename_i ha hb hc hd
        injection h with h
        injection h with hn hr
        simp only [List.cons_append, ha, hb, hc, hd, hn, hr]
      · exact absurd h (by simp)
    · exact absurd h (by simp)

theorem pairMark_append (expected : Char) (cs r : List Char) (h : pairMark expected cs = .ok r) :
    pairMark expected (cs ++ more) = .ok (r ++ more) := by
  cases cs with
  | nil => exact absurd h (by simp [pairMark])
  | cons c cs =>
      simp only [List.cons_append, pairMark] at h ⊢
      split at h
      · rename_i hc
        rw [if_pos hc, Except.ok.inj h]
      · exact absurd h (by simp)

theorem carries_unicodeEscape : Carries more unicodeEscape unicodeEscape := by
  intro cs c r h
  unfold unicodeEscape at h ⊢
  rcases bind_eq_ok h with ⟨⟨n, r₁⟩, hhex, h⟩
  rw [carries_hex4 more cs n r₁ hhex, bind_ok]
  dsimp only at h ⊢
  split
  · rename_i hn
    rw [if_pos hn] at h
    exact absurd h (by simp)
  · rename_i hn
    rw [if_neg hn] at h
    split
    · rename_i hlead
      rw [if_pos hlead] at h
      rcases bind_eq_ok h with ⟨r₂, hslash, h⟩
      rcases bind_eq_ok h with ⟨r₃, hu, h⟩
      rcases bind_eq_ok h with ⟨⟨m, r₄⟩, hhex', h⟩
      rw [pairMark_append more _ r₁ r₂ hslash, bind_ok, pairMark_append more _ r₂ r₃ hu, bind_ok,
        carries_hex4 more r₃ m r₄ hhex', bind_ok]
      dsimp only at h ⊢
      split
      · rename_i hm
        rw [if_pos hm, Except.ok.injEq, Prod.mk.injEq] at h
        rw [h.1, h.2]
      · rename_i hm
        rw [if_neg hm] at h
        exact absurd h (by simp)
    · rename_i hlead
      rw [if_neg hlead, Except.ok.injEq, Prod.mk.injEq] at h
      rw [h.1, h.2]

theorem carries_escape : Carries more escape escape := by
  intro cs c r h
  unfold escape at h
  split at h
  case h_1 => exact absurd h (by simp)
  case h_11 => exact absurd h (by simp)
  case h_10 r' => exact carries_unicodeEscape more r' c r h
  all_goals
    rw [Except.ok.injEq, Prod.mk.injEq] at h
    rw [← h.1, ← h.2]
    rfl

/-- The characters of a string, up to the quote. -/
theorem carries_stringChars (fuel fuel' : Nat) (hfuel : fuel ≤ fuel') :
    Carries more (stringChars fuel) (stringChars fuel') := by
  intro cs ds r h
  -- One character or one escape takes one unit of either fuel.
  induction fuel generalizing fuel' cs ds with
  | zero => exact absurd h (by simp [stringChars])
  | succ fuel ih =>
      cases fuel' with
      | zero => exact absurd hfuel (Nat.not_succ_le_zero _)
      | succ fuel' =>
          have hle : fuel ≤ fuel' := Nat.le_of_succ_le_succ hfuel
          cases cs with
          | nil => exact absurd h (by simp [stringChars])
          | cons c cs =>
              rw [List.cons_append]
              unfold stringChars at h ⊢
              split
              · rename_i hquote
                rw [if_pos hquote, Except.ok.injEq, Prod.mk.injEq] at h
                rw [← h.1, ← h.2]
              · rename_i hquote
                rw [if_neg hquote] at h
                split
                · rename_i hslash
                  rw [if_pos hslash] at h
                  rcases bind_eq_ok h with ⟨⟨d, r₁⟩, hescape, h⟩
                  rcases bind_eq_ok h with ⟨⟨ds', r₂⟩, hrest, h⟩
                  rw [Except.ok.injEq, Prod.mk.injEq] at h
                  rw [carries_escape more cs d r₁ hescape, bind_ok]
                  dsimp only
                  rw [ih fuel' hle r₁ ds' (by rw [hrest, h.2]), bind_ok, ← h.1]
                · rename_i hslash
                  rw [if_neg hslash] at h
                  split
                  · rename_i hcontrol
                    rw [if_pos hcontrol] at h
                    exact absurd h (by simp)
                  · rename_i hcontrol
                    rw [if_neg hcontrol] at h
                    rcases bind_eq_ok h with ⟨⟨ds', r₂⟩, hrest, h⟩
                    rw [Except.ok.injEq, Prod.mk.injEq] at h
                    rw [ih fuel' hle cs ds' (by rw [hrest, h.2]), bind_ok, ← h.1]

theorem carries_string : Carries more string string := by
  intro cs s r h
  rcases bind_eq_ok h with ⟨⟨ds, r'⟩, hchars, h⟩
  rw [Except.ok.injEq, Prod.mk.injEq] at h
  have hlength : cs.length + 1 ≤ (cs ++ more).length + 1 := by
    rw [List.length_append]
    omega
  rw [string, carries_stringChars more _ _ hlength cs ds r' hchars, bind_ok]
  dsimp only
  rw [h.1, h.2]

/-! ## Values -/

theorem carries_literal (expected : List Char) (t : Tree) :
    Carries more (literal expected t) (literal expected t) := by
  intro cs u r h
  -- Induction on the characters that are expected.
  induction expected generalizing cs with
  | nil =>
      rw [literal, Except.ok.injEq, Prod.mk.injEq] at h
      rw [literal, h.1, h.2]
  | cons e expected ih =>
      cases cs with
      | nil => exact absurd h (by simp [literal])
      | cons c cs =>
          rw [literal] at h
          rw [List.cons_append, literal]
          by_cases hc : c = e
          · rw [if_pos hc] at h
            rw [if_pos hc, ih cs h]
          · rw [if_neg hc] at h
            exact absurd h (by simp)

variable {more} (hmore : Delimited more)

include hmore in
theorem carries_scalar (c : Char) : Carries more (scalar c) (scalar c) := by
  intro cs t r h
  unfold scalar at h
  split at h
  · exact carries_literal more _ _ cs t r h
  · exact carries_literal more _ _ cs t r h
  · exact carries_literal more _ _ cs t r h
  · exact number_append hmore true cs t r h
  · rcases bind_eq_ok h with ⟨⟨s, r'⟩, hstring, h⟩
    rw [Except.ok.injEq, Prod.mk.injEq] at h
    rw [scalar, carries_string more cs s r' hstring, bind_ok, ← h.1, ← h.2]
  · rename_i hn ht hf hminus hquote
    split at h
    · -- A number without a sign has its own first character in front again.
      rename_i hdigit
      rw [scalar, if_pos hdigit]
      · exact number_append hmore false (c :: cs) t r h
      all_goals assumption
    · exact absurd h (by simp)

/-! ## Lists and objects -/

/-- One turn of the loop over items or members, up to where an item or member begins. -/
def turn {α : Type} (close : Char) (unfinished stray : Cause) (first : Bool)
    (go : List Char → Read (List α × List Char)) (cs : List Char) :
    Read (List α × List Char) :=
  match skipSpace cs with
  | [] => .error (.here unfinished [])
  | c :: r =>
      if c = close then .ok ([], r)
      else if first then go (c :: r)
      else if c = ',' then
        match skipSpace r with
        | [] => .error (.here .endInValue [])
        | c :: r => if c = close then .error (.next .trailingComma (c :: r)) else go (c :: r)
      else .error (.next stray (c :: r))

/-- A turn of either loop, if what begins an item or member is carried. -/
theorem carries_turn {α : Type} (close : Char) (unfinished stray : Cause) (first : Bool)
    {go go' : List Char → Read (List α × List Char)} (hgo : Carries more go go') :
    Carries more (turn close unfinished stray first go)
      (turn close unfinished stray first go') := by
  intro cs as r h
  unfold turn at h ⊢
  -- The turn looks at one character, or at two if the first is a comma. They are there, so they are
  -- the same with more behind.
  cases hspace : skipSpace cs with
  | nil =>
      rw [hspace] at h
      exact absurd h (by simp)
  | cons c rest =>
      rw [skipSpace_cons_append cs more c rest hspace]
      rw [hspace] at h
      dsimp only at h ⊢
      by_cases hclose : c = close
      · rw [if_pos hclose, Except.ok.injEq, Prod.mk.injEq] at h
        rw [if_pos hclose, h.1, h.2]
      · rw [if_neg hclose] at h ⊢
        by_cases hfirst : first = true
        · rw [if_pos hfirst] at h ⊢
          exact hgo _ as r h
        · rw [if_neg hfirst] at h ⊢
          by_cases hcomma : c = ','
          · rw [if_pos hcomma] at h ⊢
            cases hnext : skipSpace rest with
            | nil =>
                rw [hnext] at h
                exact absurd h (by simp)
            | cons c' rest' =>
                rw [skipSpace_cons_append rest more c' rest' hnext]
                rw [hnext] at h
                dsimp only at h ⊢
                by_cases hclose' : c' = close
                · rw [if_pos hclose'] at h
                  exact absurd h (by simp)
                · rw [if_neg hclose'] at h ⊢
                  exact hgo _ as r h
          · rw [if_neg hcomma] at h
            exact absurd h (by simp)

/-- The items of a list from where one of them begins. -/
def itemsFrom (item : List Char → Read (Tree × List Char)) (fuel : Nat) (cs : List Char) :
    Read (List Tree × List Char) := do
  let (t, rest) ← item cs
  let (ts, rest) ← listItems item fuel false rest
  .ok (t :: ts, rest)

/-- The loop over items, turn by turn. -/
theorem listItems_succ (item : List Char → Read (Tree × List Char)) (fuel : Nat) (first : Bool)
    (cs : List Char) :
    listItems item (fuel + 1) first cs
      = turn ']' .endInList .expectedCommaOrBracket first (itemsFrom item fuel) cs := by
  rw [listItems, turn]
  cases skipSpace cs with
  | nil => rfl
  | cons c r =>
      dsimp only
      split
      · rename_i heq
        exact absurd heq (by simp)
      · rename_i heq
        rw [(List.cons.inj heq).1, (List.cons.inj heq).2, if_pos rfl]
      · rename_i hclose heq
        injection heq with hc hr
        subst hc hr
        rw [if_neg hclose]
        refine ite_congr rfl (fun _ => rfl) fun _ => ite_congr rfl (fun _ => ?_) fun _ => rfl
        cases skipSpace r with
        | nil => rfl
        | cons c r =>
            dsimp only
            split
            · rename_i heq
              exact absurd heq (by simp)
            · rename_i heq
              rw [(List.cons.inj heq).1, (List.cons.inj heq).2, if_pos rfl]
            · rename_i hclose
              rw [if_neg fun hc => hclose r (by rw [hc])]
              rfl

theorem carries_listItems {item item' : List Char → Read (Tree × List Char)}
    (hitem : Carries more item item') (first : Bool) (fuel fuel' : Nat) (hfuel : fuel ≤ fuel') :
    Carries more (listItems item fuel first) (listItems item' fuel' first) := by
  -- The first item is read with all of the fuel, and the others with what it leaves.
  induction fuel generalizing first fuel' with
  | zero =>
      intro cs ts r h
      exact absurd h (by simp [listItems])
  | succ fuel ih =>
      cases fuel' with
      | zero => exact absurd hfuel (Nat.not_succ_le_zero _)
      | succ fuel' =>
          have hrest := ih false fuel' (Nat.le_of_succ_le_succ hfuel)
          have hfrom : Carries more (itemsFrom item fuel) (itemsFrom item' fuel') := by
            intro cs ts r h
            rcases bind_eq_ok h with ⟨⟨t, r₁⟩, ht, h⟩
            rcases bind_eq_ok h with ⟨⟨ts', r₂⟩, hts, h⟩
            rw [Except.ok.injEq, Prod.mk.injEq] at h
            rw [itemsFrom, hitem cs t r₁ ht, bind_ok]
            dsimp only
            rw [hrest r₁ ts' r₂ hts, bind_ok, ← h.1, ← h.2]
          intro cs ts r h
          rw [listItems_succ] at h ⊢
          exact carries_turn _ _ _ first hfrom cs ts r h

/-- The members of an object from where one of them begins. -/
def membersFrom (item : List Char → Read (Tree × List Char)) (fuel : Nat) :
    List Char → Read (List (String × Tree) × List Char)
  | '"' :: r => member item fuel r
  | r => .error (.next .keyNotString r)

/-- The loop over members, turn by turn. -/
theorem objectMembers_succ (item : List Char → Read (Tree × List Char)) (fuel : Nat)
    (first : Bool) (cs : List Char) :
    objectMembers item (fuel + 1) first cs
      = turn '\x7d' .endInObject .expectedCommaOrBrace first (membersFrom item fuel) cs := by
  rw [objectMembers, turn]
  cases skipSpace cs with
  | nil => rfl
  | cons c r =>
      dsimp only
      split
      · rename_i heq
        exact absurd heq (by simp)
      · rename_i heq
        rw [(List.cons.inj heq).1, (List.cons.inj heq).2, if_pos rfl]
      · rename_i hclose heq
        injection heq with hc hr
        subst hc hr
        rw [if_neg hclose]
        refine ite_congr rfl (fun _ => rfl) fun _ => ite_congr rfl (fun _ => ?_) fun _ => rfl
        cases skipSpace r with
        | nil => rfl
        | cons c r =>
            dsimp only
            split
            · rename_i heq
              exact absurd heq (by simp)
            · rename_i heq
              rw [(List.cons.inj heq).1, (List.cons.inj heq).2, if_pos rfl]
            · rename_i hclose
              rw [if_neg fun hc => hclose r (by rw [hc])]
              rfl

theorem colon_append (cs r : List Char) (h : colon cs = .ok r) :
    colon (cs ++ more) = .ok (r ++ more) := by
  unfold colon at h ⊢
  cases hspace : skipSpace cs with
  | nil =>
      rw [hspace] at h
      exact absurd h (by simp)
  | cons c rest =>
      rw [skipSpace_cons_append cs more c rest hspace]
      rw [hspace] at h
      split at h
      · rename_i heq
        exact absurd heq (by simp)
      · rename_i heq
        rw [(List.cons.inj heq).1, (List.cons.inj heq).2, Except.ok.inj h]
        rfl
      · exact absurd h (by simp)

theorem carries_objectMembers {item item' : List Char → Read (Tree × List Char)}
    (hitem : Carries more item item') (first : Bool) (fuel fuel' : Nat) (hfuel : fuel ≤ fuel') :
    Carries more (objectMembers item fuel first) (objectMembers item' fuel' first) := by
  -- As for items: the first member is read with all of the fuel, and the others with what it
  -- leaves.
  induction fuel generalizing first fuel' with
  | zero =>
      intro cs ts r h
      exact absurd h (by simp [objectMembers])
  | succ fuel ih =>
      cases fuel' with
      | zero => exact absurd hfuel (Nat.not_succ_le_zero _)
      | succ fuel' =>
          have hrest := ih false fuel' (Nat.le_of_succ_le_succ hfuel)
          have hfrom : Carries more (membersFrom item fuel) (membersFrom item' fuel') := by
            intro cs ms r h
            unfold membersFrom at h
            split at h
            · rcases bind_eq_ok h with ⟨⟨s, r₁⟩, hs, h⟩
              rcases bind_eq_ok h with ⟨r₂, hcolon, h⟩
              rcases bind_eq_ok h with ⟨⟨t, r₃⟩, ht, h⟩
              rcases bind_eq_ok h with ⟨⟨ms', r₄⟩, hms, h⟩
              rw [Except.ok.injEq, Prod.mk.injEq] at h
              rw [List.cons_append, membersFrom, member, carries_string more _ s r₁ hs, bind_ok]
              dsimp only
              rw [colon_append r₁ r₂ hcolon, bind_ok, hitem r₂ t r₃ ht, bind_ok]
              dsimp only
              rw [hrest r₃ ms' r₄ hms, bind_ok, ← h.1, ← h.2]
            · exact absurd h (by simp)
          intro cs ms r h
          rw [objectMembers_succ] at h ⊢
          exact carries_turn _ _ _ first hfrom cs ms r h

/-! ## Documents -/

/-- A value is read from its first character that is no space. -/
theorem value_of_skipSpace (n : Nat) (cs : List Char) (c : Char) (rest : List Char)
    (h : skipSpace cs = c :: rest) : isSpace c = false ∧ value n cs = value n (c :: rest) := by
  have hc : isSpace c = false := by
    have hhead := List.head?_dropWhile_not isSpace cs
    rw [show cs.dropWhile isSpace = c :: rest from h] at hhead
    exact hhead
  exact ⟨hc, by rw [value, value, h, skipSpace_of_not_isSpace c rest hc]⟩

include hmore in
/-- A value is carried if those that nest in it are. -/
theorem carries_value_of (n : Nat) (ih : ∀ m, n = m + 1 → Carries more (value m) (value m)) :
    Carries more (value n) (value n) := by
  intro cs t r h
  cases hspace : skipSpace cs with
  | nil =>
      rw [value, hspace] at h
      exact absurd h (by simp)
  | cons c rest =>
      have hbehind := skipSpace_cons_append cs more c rest hspace
      rcases value_of_skipSpace n cs c rest hspace with ⟨hc, hvalue⟩
      -- The loops count the characters that are left, and there are more of them now.
      have hlength : rest.length + 1 ≤ (rest ++ more).length + 1 := by
        rw [List.length_append]
        omega
      rw [hvalue] at h
      rw [(value_of_skipSpace n _ c _ hbehind).2]
      by_cases hlist : c = '['
      · rw [hlist, value, skipSpace_of_not_isSpace '[' rest (by decide)] at h
        cases n with
        | zero => exact absurd h (by simp)
        | succ n =>
            rcases bind_eq_ok h with ⟨⟨ts, r'⟩, hitems, h⟩
            rw [Except.ok.injEq, Prod.mk.injEq] at h
            have hcarried := carries_listItems (ih n rfl) true _ _ hlength rest ts r' hitems
            rw [hlist, value_list n _ _ ts hcarried, h.1, h.2]
      · by_cases hobject : c = '\x7b'
        · rw [hobject, value, skipSpace_of_not_isSpace '\x7b' rest (by decide)] at h
          cases n with
          | zero => exact absurd h (by simp)
          | succ n =>
              rcases bind_eq_ok h with ⟨⟨ms, r'⟩, hmembers, h⟩
              rw [Except.ok.injEq, Prod.mk.injEq] at h
              have hcarried := carries_objectMembers (ih n rfl) true _ _ hlength rest ms r' hmembers
              rw [hobject, value_object n _ _ ms hcarried, h.1, h.2]
        · rw [value_of_head n c _ hc hlist hobject] at h ⊢
          exact carries_scalar hmore c rest t r h

include hmore in
/-- A value, whatever nests in it. -/
theorem carries_value (n : Nat) : Carries more (value n) (value n) := by
  -- Induction on how deep values may nest.
  induction n with
  | zero => exact carries_value_of hmore 0 fun m hm => absurd hm (by simp)
  | succ n ih => exact carries_value_of hmore (n + 1) fun m hm => by rwa [← Nat.succ.inj hm]

end

/-- What it takes for a text to be read as a whole. -/
theorem parse_eq_ok_iff (text : String) (t : Tree) :
    parse text = .ok t
      ↔ ∃ rest, value maxNesting text.toList = .ok (t, rest) ∧ skipSpace rest = [] := by
  rw [parse]
  cases hvalue : value maxNesting text.toList with
  | error e => simp [Bind.bind, Except.bind, Except.mapError]
  | ok p =>
      rcases p with ⟨u, rest⟩
      cases hspace : skipSpace rest with
      | nil => simp [Bind.bind, Except.bind, Except.mapError, hspace]
      | cons c r =>
          simp only [Bind.bind, Except.bind, Except.mapError, hspace, reduceCtorEq,
            Except.ok.injEq, Prod.mk.injEq, false_iff, not_exists, not_and]
          rintro rest' ⟨_, rfl⟩
          simp [hspace]

/-- Space behind a text makes no difference. -/
theorem parse_append (text : String) (ws : List Char) (hws : Blank ws) (t : Tree)
    (h : parse text = .ok t) : parse (text ++ String.ofList ws) = .ok t := by
  -- No number goes on with space.
  have hdelimited : Delimited ws := by
    cases ws with
    | nil => exact fun c hc => absurd hc (by simp)
    | cons w ws =>
        intro c hc
        rw [List.head?_cons, Option.mem_some] at hc
        rw [← hc]
        exact delimits_of_isSpace w (hws w List.mem_cons_self)
  rcases (parse_eq_ok_iff text t).mp h with ⟨rest, hvalue, hrest⟩
  refine (parse_eq_ok_iff _ t).mpr ⟨rest ++ ws, ?_, ?_⟩
  · rw [String.toList_append, String.toList_ofList]
    exact carries_value hdelimited maxNesting text.toList t rest hvalue
  · rw [skipSpace, List.dropWhile_append, show rest.dropWhile isSpace = [] from hrest]
    have hspace := skipSpace_append ws [] hws
    rwa [List.append_nil] at hspace

end Json

end DocTree
