import UnitCalculator.Proofs.Grammar.Shape

/-!
Texts that are put together from lexemes. A lexeme ends where the next character cannot go on with
it: behind a literal no letter of a number follows, and a sign only where no exponent waits for one;
behind an identifier no letter or digit. So the text of a sequence of tokens is cut into them again.
-/

set_option autoImplicit false

namespace UnitCalculator

open Text

variable {k : CharClasses}

/-! Where a lexeme ends -/

theorem exists_of_longer_prefix {x y rest : List Char} (h : y <+: x ++ rest)
    (hl : x.length < y.length) : ∃ c z, y = x ++ c :: z ∧ rest.head? = some c := by
  obtain ⟨t, ht⟩ := h
  obtain ⟨as, rfl, -⟩ | ⟨as, rfl, hr⟩ := List.append_eq_append_iff.1 ht
  · simp only [List.length_append] at hl
    omega
  · cases as with
    | nil => simp at hl
    | cons c as => exact ⟨c, as, rfl, by rw [hr]; rfl⟩

theorem mem_or_eq_of_append {a b x z : List Char} {s c : Char}
    (h : a ++ s :: b = x ++ c :: z) : c ∈ a ∨ (a = x ∧ s = c) ∨ c ∈ b := by
  obtain ⟨as, rfl, he⟩ | ⟨as, rfl, he⟩ := List.append_eq_append_iff.1 h
  · cases as with
    | nil =>
      obtain ⟨rfl, -⟩ := List.cons.inj he
      exact .inr (.inl ⟨(List.append_nil a).symm, rfl⟩)
    | cons d as =>
      obtain ⟨-, rfl⟩ := List.cons.inj he
      exact .inr (.inr (by simp))
  · cases as with
    | nil =>
      obtain ⟨rfl, -⟩ := List.cons.inj he
      exact .inr (.inl ⟨List.append_nil x, rfl⟩)
    | cons d as =>
      obtain ⟨rfl, -⟩ := List.cons.inj he
      exact .inl (by simp)

namespace Group

def isNumeric (g : Group) : Bool := g = radix || g = float || g = octal || g = decimal

def isNumeral (c : Char) : Bool := isHexOrLowLine c || c = 'x' || c = 'X' || c = '.'

theorem isNumeral_of_digit {c : Char} (h : isDigitOrLowLine c = true) : isNumeral c = true := by
  simp [isNumeral, isHexOrLowLine, h]

theorem isNumeral_of_radixMark {c : Char} (h : isRadixMark c = true) : isNumeral c = true := by
  simp only [isRadixMark, Bool.or_eq_true, decide_eq_true_eq] at h
  obtain ((rfl | rfl) | rfl) | rfl := h <;> rfl

theorem isNumeral_of_exponentMark {c : Char} (h : isExponentMark c = true) :
    isNumeral c = true := by
  simp only [isExponentMark, Bool.or_eq_true, decide_eq_true_eq] at h
  obtain rfl | rfl := h <;> rfl

theorem isNumeric_told {c : Char} (hc : isAsciiDigit c = true) (t : List Char) :
    (told k (c :: t)).isNumeric = true := by
  rw [told, if_pos hc]
  split
  · rfl
  · split
    · rfl
    · split <;> rfl

theorem exists_digit_of_mem {g : Group} (hg : g.isNumeric = true) {x : List Char}
    (hx : x ∈ g.language k) : ∃ c t, x = c :: t ∧ isAsciiDigit c = true := by
  cases g with
  | radix =>
    obtain ⟨m, y, rfl, -⟩ := mem_radix.1 hx
    exact ⟨_, _, rfl, rfl⟩
  | float =>
    obtain ⟨c, y, z, rfl, hc, -⟩ := mem_float.1 hx
    exact ⟨_, _, rfl, hc⟩
  | octal =>
    obtain ⟨c, y, rfl, -⟩ := mem_octal.1 hx
    exact ⟨_, _, rfl, rfl⟩
  | decimal =>
    obtain rfl | ⟨c, y, rfl, hc, -⟩ := mem_decimal.1 hx
    · exact ⟨_, _, rfl, rfl⟩
    · exact ⟨_, _, rfl, hc⟩
  | _ => cases hg

/-- In a literal, a sign stands behind the mark of an exponent. -/
def Spells (y : List Char) : Prop := ∀ x c z, y = x ++ c :: z →
  isNumeral c = true ∨ isSign c = true ∧ ∃ w m, x = w ++ [m] ∧ isExponentMark m = true

theorem spells_of_numerals {y : List Char} (h : ∀ c ∈ y, isNumeral c = true) : Spells y := by
  rintro x c z rfl
  exact .inl (h c (by simp))

theorem spells_exponent {x z : List Char} (hx : ∀ c ∈ x, isNumeral c = true)
    (hz : z ∈ exponent) : Spells (x ++ z) := by
  obtain ⟨m, y, rfl, hm, hy | ⟨s, y, rfl, hs, hy⟩⟩ := mem_exponent.1 hz
  · refine spells_of_numerals (List.forall_mem_append.2 ⟨hx, ?_⟩)
    refine List.forall_mem_cons.2 ⟨isNumeral_of_exponentMark hm, fun c hc => ?_⟩
    exact isNumeral_of_digit (hy c hc)
  · intro w c t h
    have hfront : ∀ c ∈ x ++ [m], isNumeral c = true :=
      List.forall_mem_append.2 ⟨hx, by simpa using isNumeral_of_exponentMark hm⟩
    rw [show x ++ m :: s :: y = (x ++ [m]) ++ s :: y by simp] at h
    obtain h | ⟨rfl, rfl⟩ | h := mem_or_eq_of_append h
    · exact .inl (hfront c h)
    · exact .inr ⟨hs, x, m, rfl, hm⟩
    · exact .inl (isNumeral_of_digit (hy c h))

theorem spells_of_mem {g : Group} (hg : g.isNumeric = true) {y : List Char}
    (hy : y ∈ g.language k) : Spells y := by
  have hdigits {x : List Char} (hx : ∀ c ∈ x, isDigitOrLowLine c = true) :
      ∀ c ∈ x, isNumeral c = true := fun c hc => isNumeral_of_digit (hx c hc)
  have hdigit {c : Char} (hc : isAsciiDigit c = true) : isNumeral c = true :=
    isNumeral_of_digit (by simp [isDigitOrLowLine, hc])
  cases g with
  | radix =>
    obtain ⟨m, x, rfl, hm, hx⟩ := mem_radix.1 hy
    refine spells_of_numerals (List.forall_mem_cons.2 ⟨rfl, List.forall_mem_cons.2 ⟨?_, ?_⟩⟩)
    · exact isNumeral_of_radixMark hm
    · exact fun c hc => by simp [isNumeral, hx c hc]
  | float =>
    obtain ⟨c, x, z, rfl, hc, hx, hz⟩ := mem_float.1 hy
    have hwhole : ∀ d ∈ c :: x, isNumeral d = true :=
      List.forall_mem_cons.2 ⟨hdigit hc, hdigits hx⟩
    rw [← List.cons_append]
    obtain hz | ⟨v, w, rfl, hv, hw⟩ := hz
    · exact spells_exponent hwhole hz
    · have hpoint : ∀ d ∈ c :: x ++ '.' :: v, isNumeral d = true :=
        List.forall_mem_append.2 ⟨hwhole, List.forall_mem_cons.2 ⟨rfl, hdigits hv⟩⟩
      obtain rfl | hw := hw
      · rw [List.append_nil]
        exact spells_of_numerals hpoint
      · rw [show c :: x ++ '.' :: (v ++ w) = (c :: x ++ '.' :: v) ++ w by simp]
        exact spells_exponent hpoint hw
  | octal =>
    obtain ⟨c, x, rfl, hx⟩ := mem_octal.1 hy
    exact spells_of_numerals (List.forall_mem_cons.2 ⟨rfl, hdigits hx⟩)
  | decimal =>
    obtain rfl | ⟨c, x, rfl, hc, -, hx⟩ := mem_decimal.1 hy
    · exact spells_of_numerals (List.forall_mem_singleton.2 rfl)
    · exact spells_of_numerals (List.forall_mem_cons.2 ⟨hdigit hc, hdigits hx⟩)
  | _ => cases hg

/-- The character can stand behind a literal. -/
def Closes (x : List Char) (c : Char) : Prop :=
  isNumeral c = false ∧ (isSign c = true → ∀ w m, x = w ++ [m] → isExponentMark m = false)

end Group

namespace Lexeme

open UnitCalculator.Group

theorem isLongest_literal {g : Group} (hg : g.isNumeric = true) {x rest : List Char}
    (hx : x ∈ g.language k) (hr : ∀ c, rest.head? = some c → Closes x c) :
    (⟨g, x⟩ : Lexeme).IsLongest k rest := by
  obtain ⟨c, t, rfl, hc⟩ := exists_digit_of_mem hg hx
  refine .of_mem (List.cons_ne_nil c t) hx fun h _ y hy hp => ?_
  by_contra hl
  obtain ⟨d, z, rfl, hd⟩ := exists_of_longer_prefix hp (Nat.lt_of_not_le hl)
  have hnum : h.isNumeric = true := told_of_mem hy ▸ isNumeric_told hc _
  obtain ⟨hnot, hsign⟩ := hr d hd
  obtain hs | ⟨hs, w, m, hw, hm⟩ := spells_of_mem hnum hy (c :: t) d z rfl
  · rw [hnot] at hs
    cases hs
  · rw [hsign hs w m hw] at hm
    cases hm

theorem isLongest_identifier {x rest : List Char} (hx : x ∈ Group.identifier.language k)
    (hr : ∀ c, rest.head? = some c → k.word c = false) :
    (⟨.identifier, x⟩ : Lexeme).IsLongest k rest := by
  obtain ⟨c, t, rfl, hc, -⟩ := mem_identifier.1 hx
  refine .of_mem (List.cons_ne_nil c t) hx fun h _ y hy hp => ?_
  by_contra hl
  obtain ⟨d, z, rfl, hd⟩ := exists_of_longer_prefix hp (Nat.lt_of_not_le hl)
  have hdigit : isAsciiDigit c = false :=
    Bool.eq_false_iff.2 fun hd => by rw [letter_of_isAsciiDigit hd] at hc; cases hc
  have hop : isOperatorChar c = false :=
    Bool.eq_false_iff.2 fun ho => by rw [letter_of_isOperatorChar ho] at hc; cases hc
  have hg : h = .identifier := by
    rw [← told_of_mem hy]
    simp [told, hdigit, hop, hc]
  subst hg
  obtain ⟨_, _, he, -, hw⟩ := mem_identifier.1 hy
  obtain ⟨rfl, rfl⟩ := List.cons.inj he
  have hword : k.word d = true := hw d (by simp)
  rw [hr d hd] at hword
  cases hword

/-- Only a slash can be the first of two characters of an operator. -/
theorem isLongest_operator {c : Char} {rest : List Char} (hc : isOperatorChar c = true)
    (hr : c = '/' → rest.head? ≠ some '/') : (⟨.operator, [c]⟩ : Lexeme).IsLongest k rest := by
  refine .of_mem (List.cons_ne_nil c []) (mem_operator.2 (.inr ⟨c, rfl, hc⟩)) fun h _ y hy hp => ?_
  by_contra hl
  obtain ⟨d, z, rfl, hd⟩ := exists_of_longer_prefix hp (Nat.lt_of_not_le hl)
  have hg : h = .operator := by
    rw [← told_of_mem hy]
    simp [told, (ascii_of_isOperatorChar hc).2.1, hc]
  subst hg
  obtain h | ⟨_, h, -⟩ := mem_operator.1 hy
  · obtain ⟨hc, h⟩ := List.cons.inj h
    obtain ⟨rfl, -⟩ := List.cons.inj h
    exact hr hc hd
  · simp at h

theorem IsLongest.lexemes_append {x : Lexeme} {rest : List Char} (hx : x.IsLongest k rest) :
    lexemes k (x.text ++ rest) = x :: lexemes k rest := by
  obtain ⟨c, t, hct⟩ := List.exists_cons_of_ne_nil hx.nonempty
  have hfirst := isLongest_first k c (t ++ rest)
  have hsplit : x.text ++ rest = (first k c (t ++ rest)).1.text ++ (first k c (t ++ rest)).2 := by
    rw [first_append, hct]
    rfl
  obtain ⟨hx', hr'⟩ := hx.unique hfirst hsplit
  have hcons := lexemes_cons k c (t ++ rest)
  rw [← hx', ← hr'] at hcons
  rw [hct]
  exact hcons

end Lexeme

/-- The string is a name that can be typed. -/
def IsIdentifier (k : CharClasses) (s : String) : Prop := s.toList ∈ Group.identifier.language k

theorem IsIdentifier.exists_cons {s : String} (h : IsIdentifier k s) :
    ∃ c t, s.toList = c :: t ∧ k.letter c = true := by
  obtain ⟨c, t, hs, hc, -⟩ := Group.mem_identifier.1 h
  exact ⟨c, t, hs, hc⟩

/-! Sequences of tokens -/

/-- In front of `rest`, the text is cut into the tokens. -/
def Lexes (k : CharClasses) (text : List Char) (ts : List Token) (rest : List Char) : Prop :=
  ∀ us, tokenize k rest = .ok us → tokenize k (text ++ rest) = .ok (ts ++ us)

namespace Lexes

variable {a b rest : List Char} {ts us : List Token}

theorem nil (k : CharClasses) (rest : List Char) : Lexes k [] [] rest := fun _ h => h

theorem append (ha : Lexes k a ts (b ++ rest)) (hb : Lexes k b us rest) :
    Lexes k (a ++ b) (ts ++ us) rest := by
  intro vs h
  rw [List.append_assoc, List.append_assoc]
  exact ha _ (hb vs h)

theorem tokenize_eq (h : Lexes k a ts []) : tokenize k a = .ok ts := by
  have ha := h [] (tokenize_nil k)
  rwa [List.append_nil, List.append_nil] at ha

theorem of_isLongest {x : Lexeme} {u : Token} (hx : x.IsLongest k rest)
    (hu : x.token? = .ok (some u)) : Lexes k x.text [u] rest := by
  intro us h
  rw [tokenize] at h
  rw [tokenize, hx.lexemes_append, tokensOf, hu, h]
  rfl

theorem identifier {s : String} (hs : IsIdentifier k s)
    (hr : ∀ c, rest.head? = some c → k.word c = false) :
    Lexes k s.toList [.ident s] rest := by
  refine of_isLongest (Lexeme.isLongest_identifier hs hr) ?_
  simp only [Lexeme.token?, String.ofList_toList]

theorem operator {o : Operator} {c : Char} (ho : o ∈ Operator.all) (hc : o.text.toList = [c])
    (hr : c = '/' → rest.head? ≠ some '/') : Lexes k [c] [.op o] rest := by
  have hchar : isOperatorChar c = true := by
    have hmem : [c] ∈ Group.operator.language k := ⟨o, ho, hc.symm⟩
    obtain h | ⟨_, h, hd⟩ := Group.mem_operator.1 hmem
    · simp at h
    · obtain ⟨rfl, -⟩ := List.cons.inj h
      exact hd
  refine of_isLongest (Lexeme.isLongest_operator hchar hr) ?_
  have htext : String.ofList [c] = o.text := by rw [← hc, String.ofList_toList]
  simp only [Lexeme.token?, htext, Operator.ofText_text ho]

end Lexes

end UnitCalculator
