import Mathlib
import DocTree.Json.Reader
import DocTree.Proofs.Key

/-!
# Numbers Read in Context

A number has no closing mark. The reader goes on as long as the characters fit, so what it
reads depends on what follows. In a document a number is followed by nothing, or by a
character that no number goes on with, and then it is read as if it stood alone.

## Main definitions

* `Json.Delimited`: what may follow a number.

## Theorems

* `appendDigits_of_isDigit`: the digits of an integer are read to the last.
* `number_append`: a number that is read alone is read in context.
* `number_ofNat`, `value_ofInt`: integers of 64 bits are read as themselves.
-/

namespace DocTree

namespace Json

/-- Nothing follows, or something that no number goes on with. -/
def Delimited (rest : List Char) : Prop :=
  ∀ c ∈ rest.head?, c.isDigit = false ∧ c ≠ '.' ∧ c ≠ 'e' ∧ c ≠ 'E'

theorem digit?_of_isDigit (c : Char) (h : c.isDigit = true) :
    digit? c = some (c.toNat - '0'.toNat) := by
  rw [digit?, if_pos h]

theorem digit?_of_not_isDigit (c : Char) (h : c.isDigit = false) : digit? c = none := by
  rw [digit?, if_neg (by simp [h])]

/-! ## What each part does -/

/-- What was read stays as it is when more is left. -/
theorem ok_append {rest cs r : List Char} {a t : Tree}
    (h : (Except.ok (a, cs) : Read (Tree × List Char)) = .ok (t, r)) :
    (Except.ok (a, cs ++ rest) : Read (Tree × List Char)) = .ok (t, r ++ rest) := by
  injection h with h
  injection h with ht hr
  rw [ht, hr]

theorem float_append {rest : List Char} (negative : Bool) (significand : Nat) (e : Int)
    (cs : List Char) (t : Tree) (r : List Char)
    (h : float negative significand e cs = .ok (t, r)) :
    float negative significand e (cs ++ rest) = .ok (t, r ++ rest) := by
  unfold float at h ⊢
  split
  · rename_i x hx
    rw [hx] at h
    exact ok_append h
  · rename_i hx
    rw [hx] at h
    exact absurd h (by simp)

/-- The part of an exponent after its sign. -/
def exponentBody (negative : Bool) (significand : Nat) (e : Int) (down : Bool) :
    List Char → Read (Tree × List Char)
  | [] => .error (.here .endInValue [])
  | c :: r =>
    match digit? c with
    | none => .error (.next .invalidNumber (c :: r))
    | some d =>
      match exponentDigits d r with
      | (n, false, rest) =>
        float negative significand (confineExponent (if down then e - n else e + n)) rest
      | (_, true, rest) =>
        if significand ≠ 0 ∧ ¬down then .error (.here .numberOutOfRange rest)
        else .ok (.float (.ofMagnitude negative 0), rest.dropWhile Char.isDigit)

theorem exponentPart_cons (negative : Bool) (significand : Nat) (e : Int) (c : Char)
    (cs : List Char) :
    exponentPart negative significand e (c :: cs) =
      if c = '+' then exponentBody negative significand e false cs
      else if c = '-' then exponentBody negative significand e true cs
      else exponentBody negative significand e false (c :: cs) := by
  by_cases hplus : c = '+'
  · rw [if_pos hplus, hplus]
    rfl
  · by_cases hminus : c = '-'
    · rw [if_neg hplus, if_pos hminus, hminus]
      rfl
    · rw [if_neg hplus, if_neg hminus]
      unfold exponentPart
      split
      rename_i down cs' hsign
      split at hsign
      · rename_i heq
        exact absurd (List.cons.inj heq).1 hplus
      · rename_i heq
        exact absurd (List.cons.inj heq).1 hminus
      · injection hsign with hdown hcs
        subst hdown hcs
        rfl

/-- Without an exponent, a float ends here. -/
theorem floatTail_of_head (negative : Bool) (significand : Nat) (e : Int) (cs : List Char)
    (h : ∀ c ∈ cs.head?, c ≠ 'e' ∧ c ≠ 'E') :
    floatTail negative significand e cs = float negative significand e cs := by
  unfold floatTail
  split
  · exact absurd rfl (h 'e' rfl).1
  · exact absurd rfl (h 'E' rfl).2
  · rfl

/-- A number after all its integer digits, of which `more` do not count. -/
def numberEnd (negative : Bool) (significand more : Nat) (cs : List Char) :
    Read (Tree × List Char) :=
  match cs with
  | '.' :: r => fractionPart negative significand more r
  | 'e' :: r => exponentPart negative significand more r
  | 'E' :: r => exponentPart negative significand more r
  | r =>
    if 0 < more then float negative significand more r
    else if ¬negative then .ok (.integer significand, r)
    else if 0 < significand ∧ Int64.minValue.toInt ≤ -significand then
      .ok (.integer (-significand), r)
    else .ok (.float (.ofRatio true significand 1), r)

/-- The rest of a number, past the digits that do not count. -/
theorem numberTail_eq (negative : Bool) (significand : Nat) (cs : List Char) :
    numberTail negative significand cs
      = numberEnd negative significand (cs.takeWhile Char.isDigit).length
          (cs.dropWhile Char.isDigit) := rfl

/-- A number that ends here. -/
theorem numberEnd_of_head (negative : Bool) (significand more : Nat) (cs : List Char)
    (h : ∀ c ∈ cs.head?, c ≠ '.' ∧ c ≠ 'e' ∧ c ≠ 'E') :
    numberEnd negative significand more cs =
      if 0 < more then float negative significand more cs
      else if ¬negative then .ok (.integer significand, cs)
      else if 0 < significand ∧ Int64.minValue.toInt ≤ -significand then
        .ok (.integer (-significand), cs)
      else .ok (.float (.ofRatio true significand 1), cs) := by
  unfold numberEnd
  split
  · exact absurd rfl (h '.' rfl).1
  · exact absurd rfl (h 'e' rfl).2.1
  · exact absurd rfl (h 'E' rfl).2.2
  · rfl

/-- A leading zero stands alone. -/
theorem number_zero (negative : Bool) (cs : List Char)
    (h : ∀ c ∈ cs.head?, c.isDigit = false) :
    number negative ('0' :: cs) = numberTail negative 0 cs := by
  cases cs with
  | nil => rfl
  | cons c cs =>
      have hc : c.isDigit = false := h c rfl
      simp [number, hc]

theorem number_cons (negative : Bool) (c : Char) (cs : List Char) (hzero : c ≠ '0')
    (hc : c.isDigit = true) :
    number negative (c :: cs) = numberTail negative (appendDigits 0 0 (c :: cs)).1
      (appendDigits 0 0 (c :: cs)).2.2 := by
  unfold number
  split
  · rename_i heq
    exact absurd heq (by simp)
  · rename_i heq
    exact absurd (List.cons.inj heq).1 hzero
  · rename_i heq
    injection heq with hc' hcs
    subst hc' hcs
    rw [if_pos hc]

/-- Digits are appended to the last, if their number is below the limit. -/
theorem appendDigits_of_isDigit (significand count : Nat) (ds : List Char)
    (hds : ∀ c ∈ ds, c.isDigit = true)
    (hlimit : Nat.ofDigitChars 10 ds significand < significandLimit) :
    appendDigits significand count ds
      = (Nat.ofDigitChars 10 ds significand, count + ds.length, []) := by
  induction ds generalizing significand count with
  | nil => rfl
  | cons c ds ih =>
      rw [List.forall_mem_cons] at hds
      rw [Nat.ofDigitChars_cons] at hlimit ⊢
      -- The digits that follow only make the number larger.
      have hle : ∀ (es : List Char) (n : Nat), n ≤ Nat.ofDigitChars 10 es n := by
        intro es
        induction es with
        | nil => exact fun n => Nat.le_refl n
        | cons d es ih' =>
            intro n
            rw [Nat.ofDigitChars_cons]
            exact le_trans (by omega) (ih' _)
      have hfits := (hle ds _).trans_lt hlimit
      rw [appendDigits, digit?_of_isDigit c hds.1]
      dsimp only
      rw [if_pos hfits, ih _ _ hds.2 hlimit, List.length_cons]
      congr 2
      omega

/-- A character that opens no bracket and is no space begins a scalar. -/
theorem value_of_head (n : Nat) (c : Char) (cs : List Char) (hspace : isSpace c = false)
    (hlist : c ≠ '[') (hobject : c ≠ '\x7b') : value n (c :: cs) = scalar c cs := by
  have hskip : skipSpace (c :: cs) = c :: cs := by
    rw [skipSpace, List.dropWhile_cons_of_neg (by simp [hspace])]
  unfold value
  rw [hskip]
  split
  · rename_i heq
    exact absurd heq (by simp)
  · rename_i heq
    exact absurd (List.cons.inj heq).1 hlist
  · rename_i heq
    exact absurd (List.cons.inj heq).1 hobject
  · rename_i heq
    injection heq with hc hcs
    rw [hc, hcs]

theorem ne_of_isDigit (c : Char) (hc : c.isDigit = true) (d : Char) (hd : d.isDigit = false) :
    c ≠ d := by
  rintro rfl
  rw [hc] at hd
  exact absurd hd (by simp)

theorem isSpace_of_isDigit (c : Char) (hc : c.isDigit = true) : isSpace c = false := by
  have hne := ne_of_isDigit c hc
  simp only [isSpace, Bool.or_eq_false_iff, decide_eq_false_iff_not]
  exact ⟨⟨⟨hne ' ' rfl, hne '\n' rfl⟩, hne '\t' rfl⟩, hne '\r' rfl⟩

theorem value_minus (n : Nat) (cs : List Char) : value n ('-' :: cs) = number true cs :=
  value_of_head n '-' cs (by decide) (by decide) (by decide)

theorem value_digit (n : Nat) (c : Char) (cs : List Char) (hc : c.isDigit = true) :
    value n (c :: cs) = number false (c :: cs) := by
  have hne := ne_of_isDigit c hc
  have hspace := isSpace_of_isDigit c hc
  rw [value_of_head n c cs hspace (hne '[' rfl) (hne '\x7b' rfl)]
  unfold scalar
  split
  · exact absurd rfl (hne 'n' rfl)
  · exact absurd rfl (hne 't' rfl)
  · exact absurd rfl (hne 'f' rfl)
  · exact absurd rfl (hne '-' rfl)
  · exact absurd rfl (hne '"' rfl)
  · rw [if_pos hc]

/-! ## In context -/

section

variable {rest : List Char} (hrest : Delimited rest)

include hrest

theorem takeWhile_append (cs : List Char) :
    (cs ++ rest).takeWhile Char.isDigit = cs.takeWhile Char.isDigit := by
  induction cs with
  | nil =>
      -- What follows begins with no digit.
      cases rest with
      | nil => rfl
      | cons c r => simp [(hrest c rfl).1]
  | cons c cs ih =>
      rw [List.cons_append, List.takeWhile_cons, List.takeWhile_cons, ih]

theorem dropWhile_append (cs : List Char) :
    (cs ++ rest).dropWhile Char.isDigit = cs.dropWhile Char.isDigit ++ rest := by
  induction cs with
  | nil =>
      cases rest with
      | nil => rfl
      | cons c r => simp [(hrest c rfl).1]
  | cons c cs ih =>
      rw [List.cons_append, List.dropWhile_cons, List.dropWhile_cons, ih]
      split <;> rfl

theorem appendDigits_append (significand count : Nat) (cs : List Char) :
    appendDigits significand count (cs ++ rest)
      = ((appendDigits significand count cs).1, (appendDigits significand count cs).2.1,
          (appendDigits significand count cs).2.2 ++ rest) := by
  -- Induction on the digits. Past them, what follows is left over in both cases.
  induction cs generalizing significand count with
  | nil =>
      cases rest with
      | nil => rfl
      | cons c r =>
          simp only [List.nil_append, appendDigits, digit?_of_not_isDigit c (hrest c rfl).1]
  | cons c cs ih =>
      simp only [List.cons_append, appendDigits]
      cases digit? c with
      | none => rfl
      | some d =>
          dsimp only
          split
          · exact ih _ _
          · rfl

theorem exponentDigits_append (n : Nat) (cs : List Char) :
    exponentDigits n (cs ++ rest)
      = ((exponentDigits n cs).1, (exponentDigits n cs).2.1,
          (exponentDigits n cs).2.2 ++ rest) := by
  induction cs generalizing n with
  | nil =>
      cases rest with
      | nil => rfl
      | cons c r =>
          simp only [List.nil_append, exponentDigits, digit?_of_not_isDigit c (hrest c rfl).1]
  | cons c cs ih =>
      simp only [List.cons_append, exponentDigits]
      cases digit? c with
      | none => rfl
      | some d =>
          dsimp only
          split
          · rfl
          · exact ih _

theorem exponentBody_append (negative : Bool) (significand : Nat) (e : Int) (down : Bool)
    (cs : List Char) (t : Tree) (r : List Char)
    (h : exponentBody negative significand e down cs = .ok (t, r)) :
    exponentBody negative significand e down (cs ++ rest) = .ok (t, r ++ rest) := by
  cases cs with
  | nil => exact absurd h (by simp [exponentBody])
  | cons c cs =>
      simp only [exponentBody, List.cons_append] at h ⊢
      cases hd : digit? c with
      | none => exact absurd h (by simp [hd])
      | some d =>
          simp only [hd] at h ⊢
          rw [exponentDigits_append hrest]
          -- Digits of a large exponent are skipped at the end, and the others are counted.
          rcases hdigits : exponentDigits d cs with ⟨n, _ | _, tail⟩
          · rw [hdigits] at h
            exact float_append negative significand _ tail t r h
          · rw [hdigits] at h
            dsimp only at h ⊢
            split at h
            · exact absurd h (by simp)
            · rename_i hsize
              rw [if_neg hsize]
              rw [dropWhile_append hrest]
              exact ok_append h

theorem exponentPart_append (negative : Bool) (significand : Nat) (e : Int) (cs : List Char)
    (t : Tree) (r : List Char) (h : exponentPart negative significand e cs = .ok (t, r)) :
    exponentPart negative significand e (cs ++ rest) = .ok (t, r ++ rest) := by
  cases cs with
  | nil => exact absurd h (by simp [exponentPart])
  | cons c cs =>
      rw [List.cons_append, exponentPart_cons] at *
      -- A sign belongs to the exponent, and is there with more behind as well.
      split at h
      · rename_i hplus
        rw [if_pos hplus]
        exact exponentBody_append hrest _ _ _ _ _ t r h
      · rename_i hplus
        rw [if_neg hplus]
        split at h
        · rename_i hminus
          rw [if_pos hminus]
          exact exponentBody_append hrest _ _ _ _ _ t r h
        · rename_i hminus
          rw [if_neg hminus]
          exact exponentBody_append hrest _ _ _ _ (c :: cs) t r h

theorem floatTail_append (negative : Bool) (significand : Nat) (e : Int) (cs : List Char)
    (t : Tree) (r : List Char) (h : floatTail negative significand e cs = .ok (t, r)) :
    floatTail negative significand e (cs ++ rest) = .ok (t, r ++ rest) := by
  unfold floatTail at h
  split at h
  · exact exponentPart_append hrest negative significand e _ t r h
  · exact exponentPart_append hrest negative significand e _ t r h
  · -- There is no exponent, nor does what follows begin like one.
    rename_i hlower hupper
    rw [floatTail_of_head]
    · exact float_append negative significand e cs t r h
    · intro c hc
      cases cs with
      | nil => exact (hrest c hc).2.2
      | cons c' cs =>
          rw [List.cons_append, List.head?_cons, Option.mem_some] at hc
          subst hc
          exact ⟨fun heq => hlower cs (by rw [heq]), fun heq => hupper cs (by rw [heq])⟩

theorem fractionPart_append (negative : Bool) (significand : Nat) (e : Int) (cs : List Char)
    (t : Tree) (r : List Char) (h : fractionPart negative significand e cs = .ok (t, r)) :
    fractionPart negative significand e (cs ++ rest) = .ok (t, r ++ rest) := by
  cases cs with
  | nil => exact absurd h (by simp [fractionPart])
  | cons c cs =>
      simp only [fractionPart, List.cons_append] at h ⊢
      split at h
      · rename_i hc
        rw [if_pos hc, ← List.cons_append, appendDigits_append hrest, dropWhile_append hrest]
        exact floatTail_append hrest negative _ _ _ t r h
      · exact absurd h (by simp)

theorem numberEnd_append (negative : Bool) (significand more : Nat) (cs : List Char)
    (t : Tree) (r : List Char) (h : numberEnd negative significand more cs = .ok (t, r)) :
    numberEnd negative significand more (cs ++ rest) = .ok (t, r ++ rest) := by
  unfold numberEnd at h
  split at h
  · exact fractionPart_append hrest negative significand more _ t r h
  · exact exponentPart_append hrest negative significand more _ t r h
  · exact exponentPart_append hrest negative significand more _ t r h
  · -- The number ends here, and nothing that follows lets it go on.
    rename_i hpoint hlower hupper
    rw [numberEnd_of_head]
    · split at h
      · rename_i hmore
        rw [if_pos hmore]
        exact float_append negative significand more cs t r h
      · rename_i hmore
        rw [if_neg hmore]
        -- The three kinds of whole number take nothing more.
        split at h
        · rename_i hpositive
          rw [if_pos hpositive]
          exact ok_append h
        · rename_i hpositive
          rw [if_neg hpositive]
          split at h
          · rename_i hrange
            rw [if_pos hrange]
            exact ok_append h
          · rename_i hrange
            rw [if_neg hrange]
            exact ok_append h
    · intro c hc
      cases cs with
      | nil => exact (hrest c hc).2
      | cons c' cs =>
          rw [List.cons_append, List.head?_cons, Option.mem_some] at hc
          subst hc
          exact ⟨fun heq => hpoint cs (by rw [heq]), fun heq => hlower cs (by rw [heq]),
            fun heq => hupper cs (by rw [heq])⟩

theorem numberTail_append (negative : Bool) (significand : Nat) (cs : List Char)
    (t : Tree) (r : List Char) (h : numberTail negative significand cs = .ok (t, r)) :
    numberTail negative significand (cs ++ rest) = .ok (t, r ++ rest) := by
  rw [numberTail_eq] at h ⊢
  rw [takeWhile_append hrest, dropWhile_append hrest]
  exact numberEnd_append hrest negative significand _ _ t r h

/-- A number that is read alone is read in context. -/
theorem number_append (negative : Bool) (cs : List Char) (t : Tree) (r : List Char)
    (h : number negative cs = .ok (t, r)) :
    number negative (cs ++ rest) = .ok (t, r ++ rest) := by
  cases cs with
  | nil => exact absurd h (by simp [number])
  | cons c cs =>
      by_cases hzero : c = '0'
      · subst hzero
        -- Another digit after the zero would have been an error.
        have hhead : ∀ c ∈ cs.head?, c.isDigit = false := by
          intro c hc
          cases cs with
          | nil => exact absurd hc (by simp)
          | cons c' cs =>
              rw [List.head?_cons, Option.mem_some] at hc
              subst hc
              by_contra hdigit
              rw [Bool.not_eq_false] at hdigit
              exact absurd h (by simp [number, hdigit])
        rw [number_zero negative cs hhead] at h
        rw [List.cons_append, number_zero]
        · exact numberTail_append hrest negative 0 cs t r h
        · cases cs with
          | nil => exact fun c hc => (hrest c hc).1
          | cons c' cs => exact hhead
      · by_cases hdigit : c.isDigit = true
        · rw [number_cons negative c cs hzero hdigit] at h
          rw [List.cons_append, number_cons negative c _ hzero hdigit, ← List.cons_append,
            appendDigits_append hrest]
          exact numberTail_append hrest negative _ _ t r h
        · exact absurd h (by simp [number, hdigit])

/-- The digits of a natural number are read as a whole number. -/
theorem number_ofNat (negative : Bool) (n : Nat) (hn : n < significandLimit) :
    number negative (Decimal.ofNat n ++ rest) = numberEnd negative n 0 rest := by
  have htake : rest.takeWhile Char.isDigit = [] := takeWhile_append hrest []
  have hdrop : rest.dropWhile Char.isDigit = rest := dropWhile_append hrest []
  have hend : numberTail negative n rest = numberEnd negative n 0 rest := by
    rw [numberTail_eq, htake, hdrop, List.length_nil]
  rw [← hend]
  cases hdigits : Decimal.ofNat n with
  | nil => exact absurd hdigits Nat.toDigits_ne_nil
  | cons c cs =>
      have hall := Decimal.isDigit_of_mem_ofNat n
      have hvalue : Nat.ofDigitChars 10 (Decimal.ofNat n) 0 = n := Nat.ofDigitChars_ten_toDigits
      rcases Nat.eq_zero_or_pos n with rfl | hpos
      · -- The digits of zero are the one zero.
        have hzero : Decimal.ofNat 0 = ['0'] := rfl
        rw [hzero] at hdigits
        injection hdigits with hc hcs
        rw [← hc, ← hcs, List.cons_append, List.nil_append,
          number_zero negative rest fun d hd => (hrest d hd).1]
      · have hc : c ≠ '0' := Decimal.head_toDigits_ne_zero n hpos c (by
          rw [show Nat.toDigits 10 n = c :: cs from hdigits]
          rfl)
        rw [List.cons_append, number_cons negative c _ hc (hall c (by rw [hdigits]; simp)),
          ← List.cons_append, ← hdigits, appendDigits_append hrest,
          appendDigits_of_isDigit 0 0 _ hall (by rw [hvalue]; exact hn), hvalue]
        rfl

/-- An integer of 64 bits is read as itself. -/
theorem value_ofInt (n : Nat) (i : Int64) :
    value n (Decimal.ofInt i.toInt ++ rest) = .ok (.integer i.toInt, rest) := by
  have hlow := i.le_toInt
  have hhigh := i.toInt_lt
  have hlimit : significandLimit = 2 ^ 64 := rfl
  have hmin : Int64.minValue.toInt = -2 ^ 63 := rfl
  cases hi : i.toInt with
  | ofNat m =>
      have hm : m < significandLimit := by
        have hm' : (m : Int) < 2 ^ 63 := by
          rw [hi] at hhigh
          exact hhigh
        rw [hlimit]
        omega
      cases hdigits : Decimal.ofNat m with
      | nil => exact absurd hdigits Nat.toDigits_ne_nil
      | cons c cs =>
          have hc : c.isDigit = true :=
            Decimal.isDigit_of_mem_ofNat m c (by rw [hdigits]; simp)
          rw [Decimal.ofInt, hdigits, List.cons_append, value_digit n c _ hc, ← List.cons_append,
            ← hdigits, number_ofNat hrest false m hm, numberEnd_of_head _ _ _ _ fun d hd =>
              (hrest d hd).2]
          rfl
  | negSucc m =>
      rw [hi] at hlow hhigh
      have hm : m + 1 < significandLimit := by
        rw [hlimit]
        omega
      rw [Decimal.ofInt, List.cons_append, value_minus, number_ofNat hrest true (m + 1) hm,
        numberEnd_of_head _ _ _ _ fun d hd => (hrest d hd).2, if_neg (by simp), if_neg (by simp),
        if_pos ⟨by omega, by rw [hmin]; omega⟩]
      rfl

end

end Json

end DocTree
