import Mathlib
import DocTree.Key

/-!
# Keys and Their Text

An integer has one canonical text, and reading a key goes by that text alone. So
reading a text and writing the key gives the text back, whatever the text is. In the
other direction an index comes back, and so does a name, unless it spells an index:
those are the keys that are canonical, and two of them with the same text are one key.

Reading finds the canonical text by writing: it takes a text for an integer if the integer
is written as that text. What such a text looks like is said here on its own, by its signs
and digits, and the digits of a number are shown to be the only numeral that stands for it.

## Main definitions

* `Decimal.IsNumeral`: digits without a leading zero.
* `Decimal.Spells`: the canonical text of an integer.

## Theorems

* `ofNat_of_isNumeral`, `isNumeral_ofNat`: a number is written as the one numeral that stands for
  it.
* `spells_iff`: the canonical text of an integer is what it is written as.
* `canonical?_eq_some_iff`: reading accepts that text and no other.
* `int64?_eq_some_iff`: the integers of 64 bits.
* `parse_eq_index_iff`: the one text that denotes an index.
* `text_parse`: the key of a text has that text.
* `canonical_parse`, `canonical_index`, `canonical_name_iff`: which keys are canonical.
* `parse_is_faithful`: which key a text denotes, and that no key loses its text.
* `eq_of_text_eq`: canonical keys are told apart by their texts.
* `map_parse_map_text`: the texts of canonical keys are read back as the keys.
-/

namespace DocTree

namespace Decimal

theorem isDigit_of_mem_ofNat (n : Nat) (c : Char) (h : c ∈ ofNat n) : c.isDigit = true :=
  Nat.isDigit_of_mem_toDigits (by decide) (by decide) h

/-- The digits of a number are read as the number. -/
theorem natural?_ofNat (n : Nat) : natural? (ofNat n) = some n := by
  have hall : (ofNat n).all Char.isDigit = true :=
    List.all_eq_true.mpr (isDigit_of_mem_ofNat n)
  rw [natural?, if_pos ⟨Nat.toDigits_ne_nil, hall⟩, ofNat, Nat.ofDigitChars_ten_toDigits]

/-- Without a sign, an integer is read as its digits. -/
theorem signed?_of_isDigit (c : Char) (cs : List Char) (h : c.isDigit = true) :
    signed? (c :: cs) = (natural? (c :: cs)).map fun n => (n : Int) := by
  have hminus : c ≠ '-' := by
    rintro rfl
    exact absurd h (by decide)
  have hplus : c ≠ '+' := by
    rintro rfl
    exact absurd h (by decide)
  rw [signed?]
  · exact fun _ h => hminus (List.cons.inj h).1
  · exact fun _ h => hplus (List.cons.inj h).1

/-- What an integer is written as is read as the integer. -/
theorem signed?_ofInt (i : Int) : signed? (ofInt i) = some i := by
  cases i with
  | ofNat n =>
      cases hdigits : ofNat n with
      | nil => exact absurd hdigits Nat.toDigits_ne_nil
      | cons c cs =>
          have hc : c.isDigit = true := isDigit_of_mem_ofNat n c (by rw [hdigits]; simp)
          rw [ofInt, hdigits, signed?_of_isDigit c cs hc, ← hdigits, natural?_ofNat]
          rfl
  | negSucc n =>
      rw [ofInt, signed?, natural?_ofNat]
      rfl

/-- A text is canonical exactly if it is what some integer is written as. -/
theorem canonical?_eq_some_iff (cs : List Char) (i : Int) :
    canonical? cs = some i ↔ cs = ofInt i := by
  simp only [canonical?, Option.filter_eq_some_iff, decide_eq_true_eq]
  constructor
  · exact fun h => h.2.symm
  · rintro rfl
    -- Reading takes a text for what it is read as, if that is written as this text.
    exact ⟨signed?_ofInt i, rfl⟩

/-- Integers with the same text are the same. -/
theorem ofInt_injective (i j : Int) (h : ofInt i = ofInt j) : i = j := by
  have hi := (canonical?_eq_some_iff _ i).mpr rfl
  rw [h, (canonical?_eq_some_iff _ j).mpr rfl] at hi
  exact (Option.some.inj hi).symm

/-! ## Canonical texts -/

/-- The digits of a natural number: at least one, and the first is no zero unless it is the only
    one. -/
structure IsNumeral (ds : List Char) : Prop where
  ne_nil : ds ≠ []
  digits : ∀ c ∈ ds, c.isDigit = true
  lead : ds.head? = some '0' → ds = ['0']

/-- The characters are the canonical text of this integer: a numeral, and before it a minus sign
    if the integer is negative. -/
inductive Spells : List Char → Int → Prop
  | natural (ds : List Char) : IsNumeral ds → Spells ds (Nat.ofDigitChars 10 ds 0)
  | negative (ds : List Char) : IsNumeral ds → ds ≠ ['0'] →
      Spells ('-' :: ds) (-(Nat.ofDigitChars 10 ds 0 : Int))

/-- A positive number is written without a leading zero. -/
theorem head_toDigits_ne_zero (n : Nat) (hn : 0 < n) :
    ∀ c ∈ (Nat.toDigits 10 n).head?, c ≠ '0' := by
  -- The first digit of a number is that of its tenth part, down to a number of one digit.
  induction n using Nat.strongRecOn with
  | ind n ih =>
      by_cases hsmall : n < 10
      · rw [Nat.toDigits_of_lt_base hsmall]
        intro c hc
        rw [List.head?_cons, Option.mem_some] at hc
        subst hc
        have : ∀ m < 10, 0 < m → Nat.digitChar m ≠ '0' := by decide
        exact this n hsmall hn
      · rw [Nat.toDigits_of_base_le (by decide) (by omega),
          List.head?_append_of_ne_nil _ Nat.toDigits_ne_nil]
        exact ih (n / 10) (by omega) (by omega)

/-- A number is written as a numeral. -/
theorem isNumeral_ofNat (n : Nat) : IsNumeral (ofNat n) where
  ne_nil := Nat.toDigits_ne_nil
  digits := isDigit_of_mem_ofNat n
  lead := by
    intro hzero
    rcases Nat.eq_zero_or_pos n with rfl | hpos
    · rfl
    · exact absurd rfl (head_toDigits_ne_zero n hpos '0' hzero)

/-- A digit is what its value is written as. -/
theorem toDigits_of_isDigit (c : Char) (h : c.isDigit = true) :
    c.toNat - '0'.toNat < 10 ∧ Nat.toDigits 10 (c.toNat - '0'.toNat) = [c] := by
  have hzero : '0'.toNat = 48 := rfl
  have hnine : '9'.toNat = 57 := rfl
  rw [Char.isDigit_iff_toNat] at h
  have hlt : c.toNat - '0'.toNat < 10 := by omega
  refine ⟨hlt, ?_⟩
  rw [Nat.toDigits_of_lt_base hlt, List.cons.injEq]
  refine ⟨Char.toNat_inj.mp ?_, rfl⟩
  rw [Nat.toNat_digitChar_of_lt_ten hlt]
  omega

/-- Digits behind those of a positive number are the digits of the number that they make of it. -/
theorem toDigits_append (n : Nat) (hn : 0 < n) (ds : List Char)
    (h : ∀ c ∈ ds, c.isDigit = true) :
    Nat.toDigits 10 n ++ ds = Nat.toDigits 10 (Nat.ofDigitChars 10 ds n) := by
  -- Induction on the digits behind, with the number that they make of it so far.
  induction ds generalizing n with
  | nil => exact List.append_nil _
  | cons c ds ih =>
      rw [List.forall_mem_cons] at h
      rcases toDigits_of_isDigit c h.1 with ⟨hlt, hc⟩
      calc Nat.toDigits 10 n ++ c :: ds
          = Nat.toDigits 10 n ++ Nat.toDigits 10 (c.toNat - '0'.toNat) ++ ds := by
            rw [hc, List.append_assoc, List.singleton_append]
        _ = Nat.toDigits 10 (10 * n + (c.toNat - '0'.toNat)) ++ ds := by
            rw [Nat.toDigits_append_toDigits (by decide) hn hlt]
        _ = Nat.toDigits 10 (Nat.ofDigitChars 10 (c :: ds) n) := by
            rw [ih _ (by omega) h.2, Nat.ofDigitChars_cons]

/-- A numeral is what its value is written as. -/
theorem ofNat_of_isNumeral (ds : List Char) (h : IsNumeral ds) :
    ofNat (Nat.ofDigitChars 10 ds 0) = ds := by
  cases ds with
  | nil => exact absurd rfl h.ne_nil
  | cons c ds =>
      rcases List.forall_mem_cons.mp h.digits with ⟨hc, hds⟩
      rcases toDigits_of_isDigit c hc with ⟨hlt, hdigits⟩
      by_cases hzero : c = '0'
      · rw [h.lead (by rw [hzero, List.head?_cons])]
        rfl
      · -- The first digit is positive, and the others come behind it.
        have hpos : 0 < c.toNat - '0'.toNat := by
          rcases Nat.eq_zero_or_pos (c.toNat - '0'.toNat) with hnone | hpos
          · rw [hnone] at hdigits
            exact absurd (List.cons.inj hdigits).1.symm hzero
          · exact hpos
        rw [ofNat, Nat.ofDigitChars_cons, Nat.mul_zero, Nat.zero_add,
          ← toDigits_append _ hpos ds hds, hdigits, List.singleton_append]

/-- An integer is written as its canonical text. -/
theorem spells_iff (cs : List Char) (i : Int) : Spells cs i ↔ cs = ofInt i := by
  constructor
  · intro h
    cases h with
    | natural ds hds => exact (ofNat_of_isNumeral cs hds).symm
    | negative ds hds hne =>
        have hwritten := ofNat_of_isNumeral ds hds
        cases hvalue : Nat.ofDigitChars 10 ds 0 with
        | zero =>
            -- Zero is written without a sign.
            rw [hvalue] at hwritten
            exact absurd hwritten.symm hne
        | succ n =>
            rw [hvalue] at hwritten
            exact congrArg ('-' :: ·) hwritten.symm
  · rintro rfl
    cases i with
    | ofNat n =>
        have hspells := Spells.natural (ofNat n) (isNumeral_ofNat n)
        rwa [ofNat, Nat.ofDigitChars_ten_toDigits] at hspells
    | negSucc n =>
        have hne : ofNat (n + 1) ≠ ['0'] := by
          intro hzero
          refine head_toDigits_ne_zero (n + 1) (Nat.succ_pos n) '0' ?_ rfl
          rw [show Nat.toDigits 10 (n + 1) = ['0'] from hzero]
          rfl
        have hspells := Spells.negative (ofNat (n + 1)) (isNumeral_ofNat (n + 1)) hne
        rwa [ofNat, Nat.ofDigitChars_ten_toDigits] at hspells

/-! ## Reading -/

/-- The integers of 64 bits are those that come from one. -/
theorem int64?_eq_some_iff (i : Int) (j : Int64) : int64? i = some j ↔ i = j.toInt := by
  have hmin : Int64.minValue.toInt = -2 ^ 63 := rfl
  have hmax : Int64.maxValue.toInt = 2 ^ 63 - 1 := rfl
  unfold int64?
  constructor
  · intro h
    split at h
    · rename_i hrange
      rw [Option.some.injEq] at h
      rw [← h, Int64.toInt_ofInt_of_le (by omega) (by omega)]
    · exact absurd h (by simp)
  · rintro rfl
    have hlow := j.le_toInt
    have hhigh := j.toInt_le
    rw [if_pos ⟨by omega, hhigh⟩, Int64.ofInt_toInt]

theorem int64?_eq_none_iff (i : Int) : int64? i = none ↔ ∀ j : Int64, j.toInt ≠ i := by
  rw [Option.eq_none_iff_forall_ne_some]
  exact forall_congr' fun j => not_congr ((int64?_eq_some_iff i j).trans eq_comm)

end Decimal

namespace Key

/-- One text denotes an index, the one that it is written as. -/
theorem parse_eq_index_iff (t : String) (i : Int64) : parse t = index i ↔ t = (index i).text := by
  have hread : (Decimal.canonical? t.toList).bind Decimal.int64? = some i
      ↔ t = (index i).text := by
    simp only [Option.bind_eq_some_iff, Decimal.canonical?_eq_some_iff,
      Decimal.int64?_eq_some_iff, exists_eq_right, text]
    constructor
    · intro h
      rw [← h, String.ofList_toList]
    · rintro rfl
      exact String.toList_ofList
  rw [← hread, parse]
  split
  · rename_i j hj
    rw [hj, index.injEq, Option.some.injEq]
  · rename_i hnone
    simp [hnone]

/-- The key of a text has that text. -/
theorem text_parse (t : String) : (parse t).text = t := by
  cases hparse : parse t with
  | index i => exact ((parse_eq_index_iff t i).mp hparse).symm
  | name s =>
      rw [parse] at hparse
      split at hparse
      · exact absurd hparse (by simp)
      · exact (name.inj hparse).symm

/-- Texts that denote the same key are the same. -/
theorem parse_injective : Function.Injective parse :=
  Function.LeftInverse.injective text_parse

/-- The key of a text is canonical. -/
theorem canonical_parse (t : String) : (parse t).Canonical := by
  rw [Canonical, text_parse]

/-- An index is canonical. -/
theorem canonical_index (i : Int64) : (index i).Canonical :=
  (parse_eq_index_iff _ i).mpr rfl

/-- A name is canonical unless it spells an index. -/
theorem canonical_name_iff (s : String) : (name s).Canonical ↔ ∀ i, s ≠ (index i).text := by
  have htext : (name s).text = s := rfl
  rw [Canonical, htext]
  constructor
  · rintro h i hs
    rw [(parse_eq_index_iff s i).mpr hs] at h
    exact absurd h (by simp)
  · intro h
    cases hparse : parse s with
    | index i => exact absurd ((parse_eq_index_iff s i).mp hparse) (h i)
    | name r =>
        have hr := text_parse s
        rw [hparse] at hr
        rw [show r = s from hr]

/-- Every text is the text of the key that it denotes, so texts that denote one key are the same.
    A text denotes an index exactly if it is the canonical text of that index, that is, of an
    integer from -2^63 up to 2^63, and otherwise it denotes the name that it is. Every index is
    denoted by its own text. -/
theorem parse_is_faithful :
    (∀ t, (parse t).text = t) ∧
    Function.Injective parse ∧
    (∀ t i, parse t = index i ↔ Decimal.Spells t.toList i.toInt) ∧
    (∀ t s, parse t = name s ↔
      s = t ∧ ∀ n : Int, -2 ^ 63 ≤ n → n < 2 ^ 63 → ¬ Decimal.Spells t.toList n) ∧
    ∀ i, parse (index i).text = index i := by
  -- By index the text is fixed, so the names are what is left over.
  have hindex (t : String) (i : Int64) :
      parse t = index i ↔ Decimal.Spells t.toList i.toInt := by
    rw [parse_eq_index_iff, Decimal.spells_iff, text, ← String.toList_inj, String.toList_ofList]
  refine ⟨text_parse, parse_injective, hindex, fun t s => ⟨fun h => ⟨?_, ?_⟩, ?_⟩, canonical_index⟩
  · have htext := text_parse t
    rwa [h] at htext
  · intro n hlow hhigh hspells
    rw [← Int64.toInt_ofInt_of_le hlow hhigh, ← hindex, h] at hspells
    exact absurd hspells (by simp)
  · rintro ⟨rfl, hnone⟩
    cases hparse : parse s with
    | index i => exact absurd ((hindex s i).mp hparse) (hnone _ i.le_toInt i.toInt_lt)
    | name r =>
        have htext := text_parse s
        rw [hparse] at htext
        rw [show r = s from htext]

/-- The bounds are not symmetric: the least index has no counterpart above zero. -/
theorem parse_beside_the_bounds :
    parse "-9223372036854775808" = index Int64.minValue ∧
      parse "9223372036854775808" = name "9223372036854775808" ∧ parse "-0" = name "-0" := by
  rcases parse_is_faithful with ⟨_, _, hindex, hname, _⟩
  refine ⟨(hindex _ _).mpr ((Decimal.spells_iff _ _).mpr (by decide +kernel)),
    (hname _ _).mpr ⟨rfl, fun n _ hhigh hspells => ?_⟩,
    (hname _ _).mpr ⟨rfl, fun n _ _ hspells => ?_⟩⟩
  · rw [Decimal.spells_iff, ← Decimal.canonical?_eq_some_iff,
      show Decimal.canonical? "9223372036854775808".toList = some (2 ^ 63) by decide +kernel,
      Option.some.injEq] at hspells
    omega
  · rw [Decimal.spells_iff, ← Decimal.canonical?_eq_some_iff,
      show Decimal.canonical? "-0".toList = none by decide +kernel] at hspells
    exact absurd hspells (by simp)

/-- Canonical keys are told apart by their texts. -/
theorem eq_of_text_eq (k l : Key) (hk : k.Canonical) (hl : l.Canonical)
    (h : k.text = l.text) : k = l := by
  rw [← hk, ← hl, h]

/-- The texts of canonical keys are read back as the keys. -/
theorem map_parse_map_text (keys : List Key) (h : ∀ k ∈ keys, k.Canonical) :
    (keys.map text).map parse = keys := by
  rw [List.map_map]
  exact (List.map_congr_left h).trans (List.map_id keys)

end Key

end DocTree
