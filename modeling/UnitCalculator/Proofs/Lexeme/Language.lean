import UnitCalculator.Lexeme
import Mathlib.Computability.Language
import Mathlib.Tactic.FinCases

/-!
The languages of lexemes, one for each group, as the regular expressions that they are. A text is in
one of them at most, since its first characters tell the group.
-/

set_option autoImplicit false

namespace UnitCalculator.Group

open Text Computability

/-- One character of a class. -/
def oneOf (p : Char → Bool) : Language Char := {x | ∃ c, p c = true ∧ x = [c]}

def exponent : Language Char :=
  oneOf isExponentMark * (1 + oneOf isSign) * (oneOf isDigitOrLowLine)∗

def mantissa : Language Char := oneOf isAsciiDigit * (oneOf isDigitOrLowLine)∗

def language (k : CharClasses) : Group → Language Char
  | radix => oneOf (· = '0') * oneOf isRadixMark * (oneOf isHexOrLowLine)∗
  | float =>
    mantissa * oneOf (· = '.') * (oneOf isDigitOrLowLine)∗ * (1 + exponent) + mantissa * exponent
  | octal => oneOf (· = '0') * oneOf isDigitOrLowLine * (oneOf isDigitOrLowLine)∗
  | decimal =>
    oneOf (fun c => isAsciiDigit c && c ≠ '0') * (oneOf isDigitOrLowLine)∗ + oneOf (· = '0')
  | operator => {x | ∃ o ∈ Operator.all, x = o.text.toList}
  | identifier => oneOf k.letter * (oneOf k.word)∗
  | space => oneOf k.space * (oneOf k.space)∗
  | other => oneOf fun c => !(isOperatorChar c || k.letter c || isAsciiDigit c || k.space c)

/-! Members, part by part -/

variable {p : Char → Bool} {L : Language Char} {x : List Char}

theorem mem_oneOf : x ∈ oneOf p ↔ ∃ c, p c = true ∧ x = [c] := Iff.rfl

theorem mem_oneOf_mul : x ∈ oneOf p * L ↔ ∃ c y, x = c :: y ∧ p c = true ∧ y ∈ L := by
  rw [Language.mem_mul]
  constructor
  · rintro ⟨_, ⟨c, hc, rfl⟩, y, hy, rfl⟩
    exact ⟨c, y, rfl, hc, hy⟩
  · rintro ⟨c, y, rfl, hc, hy⟩
    exact ⟨[c], ⟨c, hc, rfl⟩, y, hy, rfl⟩

theorem mem_kstar_oneOf : x ∈ (oneOf p)∗ ↔ ∀ c ∈ x, p c = true := by
  rw [Language.mem_kstar]
  constructor
  · rintro ⟨xs, rfl, hxs⟩ c hc
    obtain ⟨y, hy, hc⟩ := List.mem_flatten.1 hc
    obtain ⟨d, hd, rfl⟩ := hxs y hy
    rwa [List.mem_singleton.1 hc]
  · intro h
    refine ⟨x.map fun c => [c], by simp [← List.flatMap_def], ?_⟩
    intro y hy
    obtain ⟨c, hc, rfl⟩ := List.mem_map.1 hy
    exact ⟨c, h c hc, rfl⟩

theorem mem_kstar_mul : x ∈ (oneOf p)∗ * L ↔
    ∃ y z, x = y ++ z ∧ (∀ c ∈ y, p c = true) ∧ z ∈ L := by
  rw [Language.mem_mul]
  constructor
  · rintro ⟨y, hy, z, hz, rfl⟩
    exact ⟨y, z, rfl, mem_kstar_oneOf.1 hy, hz⟩
  · rintro ⟨y, z, rfl, hy, hz⟩
    exact ⟨y, mem_kstar_oneOf.2 hy, z, hz, rfl⟩

theorem mem_optional_mul {M : Language Char} : x ∈ (1 + L) * M ↔ x ∈ M ∨ x ∈ L * M := by
  rw [add_mul, one_mul, Language.mem_add]

theorem mem_exponent : x ∈ exponent ↔ ∃ e y, x = e :: y ∧ isExponentMark e = true ∧
    ((∀ c ∈ y, isDigitOrLowLine c = true) ∨
      ∃ s z, y = s :: z ∧ isSign s = true ∧ ∀ c ∈ z, isDigitOrLowLine c = true) := by
  rw [exponent, mul_assoc, mem_oneOf_mul]
  simp only [mem_optional_mul, mem_oneOf_mul, mem_kstar_oneOf]

theorem mem_mantissa_mul : x ∈ mantissa * L ↔ ∃ c y z, x = c :: (y ++ z) ∧
    isAsciiDigit c = true ∧ (∀ c ∈ y, isDigitOrLowLine c = true) ∧ z ∈ L := by
  rw [mantissa, mul_assoc, mem_oneOf_mul]
  simp only [mem_kstar_mul]
  constructor
  · rintro ⟨c, _, rfl, hc, y, z, rfl, hy, hz⟩
    exact ⟨c, y, z, rfl, hc, hy, hz⟩
  · rintro ⟨c, y, z, rfl, hc, hy, hz⟩
    exact ⟨c, _, rfl, hc, y, z, rfl, hy, hz⟩

/-! Members of the groups -/

variable {k : CharClasses}

theorem mem_radix : x ∈ language k radix ↔
    ∃ m y, x = '0' :: m :: y ∧ isRadixMark m = true ∧ ∀ c ∈ y, isHexOrLowLine c = true := by
  rw [language, mul_assoc]
  simp only [mem_oneOf_mul, mem_kstar_oneOf, decide_eq_true_eq]
  constructor
  · rintro ⟨_, _, rfl, rfl, m, y, rfl, hm, hy⟩
    exact ⟨m, y, rfl, hm, hy⟩
  · rintro ⟨m, y, rfl, hm, hy⟩
    exact ⟨_, _, rfl, rfl, m, y, rfl, hm, hy⟩

theorem mem_float : x ∈ language k float ↔ ∃ c y z, x = c :: (y ++ z) ∧ isAsciiDigit c = true ∧
    (∀ c ∈ y, isDigitOrLowLine c = true) ∧ (z ∈ exponent ∨ ∃ v w, z = '.' :: (v ++ w) ∧
      (∀ c ∈ v, isDigitOrLowLine c = true) ∧ (w = [] ∨ w ∈ exponent)) := by
  rw [language, mul_assoc, mul_assoc, Language.mem_add]
  simp only [mem_mantissa_mul, mem_oneOf_mul, mem_kstar_mul, Language.mem_add, Language.mem_one,
    decide_eq_true_eq]
  constructor
  · rintro (⟨c, y, _, rfl, hc, hy, _, _, rfl, rfl, v, w, rfl, hv, hw⟩ | ⟨c, y, z, rfl, hc, hy, hz⟩)
    · exact ⟨c, y, _, rfl, hc, hy, .inr ⟨v, w, rfl, hv, hw⟩⟩
    · exact ⟨c, y, z, rfl, hc, hy, .inl hz⟩
  · rintro ⟨c, y, z, rfl, hc, hy, hz | ⟨v, w, rfl, hv, hw⟩⟩
    · exact .inr ⟨c, y, z, rfl, hc, hy, hz⟩
    · exact .inl ⟨c, y, _, rfl, hc, hy, _, _, rfl, rfl, v, w, rfl, hv, hw⟩

theorem mem_octal : x ∈ language k octal ↔
    ∃ c y, x = '0' :: c :: y ∧ ∀ d ∈ c :: y, isDigitOrLowLine d = true := by
  rw [language, mul_assoc]
  simp only [mem_oneOf_mul, mem_kstar_oneOf, decide_eq_true_eq, List.forall_mem_cons]
  constructor
  · rintro ⟨_, _, rfl, rfl, c, y, rfl, hc, hy⟩
    exact ⟨c, y, rfl, hc, hy⟩
  · rintro ⟨c, y, rfl, hc, hy⟩
    exact ⟨_, _, rfl, rfl, c, y, rfl, hc, hy⟩

theorem mem_decimal : x ∈ language k decimal ↔ x = ['0'] ∨ ∃ c y, x = c :: y ∧
    isAsciiDigit c = true ∧ c ≠ '0' ∧ ∀ d ∈ y, isDigitOrLowLine d = true := by
  rw [language, Language.mem_add]
  simp only [mem_oneOf_mul, mem_kstar_oneOf, mem_oneOf, Bool.and_eq_true, decide_eq_true_eq]
  constructor
  · rintro (⟨c, y, rfl, ⟨hc, h₀⟩, hy⟩ | ⟨_, rfl, rfl⟩)
    · exact .inr ⟨c, y, rfl, hc, h₀, hy⟩
    · exact .inl rfl
  · rintro (rfl | ⟨c, y, rfl, hc, h₀, hy⟩)
    · exact .inr ⟨_, rfl, rfl⟩
    · exact .inl ⟨c, y, rfl, ⟨hc, h₀⟩, hy⟩

theorem mem_operator : x ∈ language k operator ↔
    x = ['/', '/'] ∨ ∃ c, x = [c] ∧ isOperatorChar c = true := by
  constructor
  · rintro ⟨o, ho, rfl⟩
    fin_cases ho
    · exact .inl rfl
    all_goals exact .inr ⟨_, rfl, by decide⟩
  · rintro (rfl | ⟨c, rfl, hc⟩)
    · exact ⟨.parallel, by decide, rfl⟩
    · have hall : ("+-*/%^(),[]=".toList.all fun c =>
          Operator.all.any fun o => [c] == o.text.toList) = true := by decide
      have ho : ∃ o ∈ Operator.all, [c] = o.text.toList := by
        simpa using List.all_eq_true.1 hall c (List.contains_iff_mem.1 hc)
      exact ho

theorem mem_identifier : x ∈ language k identifier ↔
    ∃ c y, x = c :: y ∧ k.letter c = true ∧ ∀ d ∈ y, k.word d = true := by
  rw [language, mem_oneOf_mul]
  simp only [mem_kstar_oneOf]

theorem mem_space : x ∈ language k space ↔
    ∃ c y, x = c :: y ∧ k.space c = true ∧ ∀ d ∈ y, k.space d = true := by
  rw [language, mem_oneOf_mul]
  simp only [mem_kstar_oneOf]

/-! The classes of characters that begin a lexeme, or go on with a number, do not meet -/

variable {c : Char}

theorem ascii_of_isOperatorChar (h : isOperatorChar c = true) :
    c.toNat < 128 ∧ isAsciiDigit c = false ∧ (isAsciiLetter c || c = '_') = false ∧
      isAsciiSpace c = false := by
  have hall : ("+-*/%^(),[]=".toList.all fun c => c.toNat < 128 && !isAsciiDigit c &&
      !(isAsciiLetter c || c = '_') && !isAsciiSpace c) = true := by decide
  simpa [and_assoc] using List.all_eq_true.1 hall c (List.contains_iff_mem.1 h)

theorem letter_of_isOperatorChar (h : isOperatorChar c = true) : k.letter c = false := by
  obtain ⟨ha, -, hl, -⟩ := ascii_of_isOperatorChar h
  rw [k.letter_ascii c ha, hl]

theorem letter_of_isAsciiDigit (h : isAsciiDigit c = true) : k.letter c = false := by
  rw [k.letter_ascii c (lt_of_ascii_digit h)]
  have hc : 48 ≤ c.toNat ∧ c.toNat ≤ 57 := by
    simpa [isAsciiDigit, Char.le_def, UInt32.le_iff_toNat_le] using h
  have hl : c ≠ '_' := by
    rintro rfl
    exact absurd hc (by decide)
  have ha : ('a' : Char).val.toNat = 97 := rfl
  have hA : ('A' : Char).val.toNat = 65 := rfl
  simp only [isAsciiLetter, hl, decide_false, Bool.or_false, Bool.or_eq_false_iff,
    Bool.and_eq_false_iff, decide_eq_false_iff_not, Char.le_def, UInt32.le_iff_toNat_le]
  simp only [Char.toNat] at hc
  omega

theorem not_number_of_space (h : k.space c = true) :
    isAsciiDigit c = false ∧ isOperatorChar c = false := by
  have hw := (k.space_not_word c h).2
  refine ⟨Bool.eq_false_iff.2 fun hd => ?_, Bool.eq_false_iff.2 fun ho => ?_⟩
  · rw [k.digit_ascii c (lt_of_ascii_digit hd), hd] at hw
    cases hw
  · obtain ⟨ha, -, -, hs⟩ := ascii_of_isOperatorChar ho
    rw [k.space_ascii c ha, hs] at h
    cases h

theorem not_digit_of_isRadixMark (h : isRadixMark c = true) : isDigitOrLowLine c = false := by
  simp only [isRadixMark, Bool.or_eq_true, decide_eq_true_eq] at h
  obtain ((rfl | rfl) | rfl) | rfl := h <;> rfl

theorem of_isExponentMark (h : isExponentMark c = true) :
    isDigitOrLowLine c = false ∧ isRadixMark c = false := by
  simp only [isExponentMark, Bool.or_eq_true, decide_eq_true_eq] at h
  obtain rfl | rfl := h <;> exact ⟨rfl, rfl⟩

/-! One group for each text -/

/-- What only a float has behind its first digit. -/
def isFloatMark (c : Char) : Bool := c = '.' || isExponentMark c

/-- The group of a lexeme, by its first character and, for numbers, by what is behind it. -/
def told (k : CharClasses) : List Char → Group
  | [] => other
  | c :: t =>
    if isAsciiDigit c then
      if t.head?.any isRadixMark then radix
      else if t.any isFloatMark then float
      else if c = '0' && !t.isEmpty then octal
      else decimal
    else if isOperatorChar c then operator
    else if k.letter c then identifier
    else if k.space c then space
    else other

theorem not_radixMark_head {y : List Char} (hy : ∀ d ∈ y, isDigitOrLowLine d = true) :
    y.head?.any isRadixMark = false := by
  cases y with
  | nil => rfl
  | cons d y =>
    refine Bool.eq_false_iff.2 fun hd => ?_
    have h := hy d List.mem_cons_self
    rw [not_digit_of_isRadixMark (by simpa using hd)] at h
    cases h

theorem not_floatMark {y : List Char} (hy : ∀ d ∈ y, isDigitOrLowLine d = true) :
    y.any isFloatMark = false := by
  rw [List.any_eq_false]
  intro d hd hm
  have h := hy d hd
  simp only [isFloatMark, Bool.or_eq_true, decide_eq_true_eq] at hm
  obtain rfl | hm := hm
  · cases h
  · rw [(of_isExponentMark hm).1] at h
    cases h

theorem told_of_mem {g : Group} (h : x ∈ language k g) : told k x = g := by
  cases g with
  | radix =>
    obtain ⟨m, y, rfl, hm, -⟩ := mem_radix.1 h
    simp [told, isAsciiDigit, hm]
  | float =>
    obtain ⟨c, y, z, rfl, hc, hy, hz⟩ := mem_float.1 h
    have hm : ∃ d w, z = d :: w ∧ isFloatMark d = true ∧ isRadixMark d = false := by
      obtain hz | ⟨v, w, rfl, -, -⟩ := hz
      · obtain ⟨e, w, rfl, he, -⟩ := mem_exponent.1 hz
        exact ⟨e, w, rfl, by simp [isFloatMark, he], (of_isExponentMark he).2⟩
      · exact ⟨'.', _, rfl, rfl, rfl⟩
    obtain ⟨d, w, rfl, hd, hr⟩ := hm
    have hh : (y ++ d :: w).head?.any isRadixMark = false := by
      cases y with
      | nil => simp [hr]
      | cons e y => exact not_radixMark_head (y := e :: y) hy
    rw [told, if_pos hc, hh]
    simp [hd]
  | octal =>
    obtain ⟨c, y, rfl, hy⟩ := mem_octal.1 h
    have h₀ : isAsciiDigit '0' = true := rfl
    rw [told, if_pos h₀, not_radixMark_head hy, not_floatMark hy]
    rfl
  | decimal =>
    obtain rfl | ⟨c, y, rfl, hc, h₀, hy⟩ := mem_decimal.1 h
    · rfl
    · simp [told, hc, not_radixMark_head hy, not_floatMark hy, h₀]
  | operator =>
    obtain rfl | ⟨c, rfl, hc⟩ := mem_operator.1 h
    · rfl
    · simp [told, hc, (ascii_of_isOperatorChar hc).2.1]
  | identifier =>
    obtain ⟨c, y, rfl, hc, -⟩ := mem_identifier.1 h
    have hd : isAsciiDigit c = false :=
      Bool.eq_false_iff.2 fun hd => by simp [letter_of_isAsciiDigit hd] at hc
    have ho : isOperatorChar c = false :=
      Bool.eq_false_iff.2 fun ho => by simp [letter_of_isOperatorChar ho] at hc
    simp [told, hd, ho, hc]
  | space =>
    obtain ⟨c, y, rfl, hc, -⟩ := mem_space.1 h
    obtain ⟨hd, ho⟩ := not_number_of_space hc
    simp [told, hd, ho, (k.space_not_word c hc).1, hc]
  | other =>
    obtain ⟨c, hc, rfl⟩ := h
    simp only [Bool.not_eq_true', Bool.or_eq_false_iff] at hc
    obtain ⟨⟨⟨ho, hl⟩, hd⟩, hs⟩ := hc
    simp [told, hd, ho, hl, hs]

/-- No text belongs to two groups. -/
theorem language_unique {g h : Group} (hg : x ∈ language k g) (hh : x ∈ language k h) : g = h :=
  (told_of_mem hg).symm.trans (told_of_mem hh)

end UnitCalculator.Group
