import UnitCalculator.Display
import UnitCalculator.Proofs.Lexeme.Integer
import UnitCalculator.Proofs.Lexeme.Sequence

/-!
Integers as they are shown. In every radix, and however its digits are grouped, the text of a
natural number is one literal, of that number, which is refused if it is too large.
-/

set_option autoImplicit false

namespace UnitCalculator

open Text Decimal

variable {k : CharClasses}

/-! Literals -/

/-- The text is a lexeme of a number, which is read as a token, or refused. -/
def IsLiteral (k : CharClasses) (x : List Char) (r : Except LexError Token) : Prop :=
  ∃ g : Group, g.isNumeric = true ∧ x ∈ g.language k ∧ (⟨g, x⟩ : Lexeme).token? = some <$> r

theorem IsLiteral.lexes {x rest : List Char} {t : Token} (h : IsLiteral k x (.ok t))
    (hr : ∀ c, rest.head? = some c → Group.Closes x c) : Lexes k x [t] rest := by
  obtain ⟨g, hg, hx, ht⟩ := h
  exact .of_isLongest (Lexeme.isLongest_literal hg hx hr) ht

theorem IsLiteral.refused {x rest : List Char} {e : LexError} (h : IsLiteral k x (.error e))
    (hr : ∀ c, rest.head? = some c → Group.Closes x c) : tokenize k (x ++ rest) = .error e := by
  obtain ⟨g, hg, hx, he⟩ := h
  rw [tokenize, (Lexeme.isLongest_literal hg hx hr).lexemes_append, tokensOf, he]
  rfl

namespace Literal

variable {b n : Nat} {ds : List Char}

/-! Digits -/

theorem exists_of_mem_toDigits {c : Char} (hb : 1 < b) (h : c ∈ Nat.toDigits b n) :
    ∃ d < b, c = Nat.digitChar d := by
  induction n using Nat.strongRecOn with
  | ind n ih =>
    rw [Nat.toDigits_eq_if hb] at h
    split at h
    · next hn => exact ⟨n, hn, List.mem_singleton.1 h⟩
    · next hn =>
      obtain h | h := List.mem_append.1 h
      · exact ih _ (Nat.div_lt_self (by omega) hb) h
      · exact ⟨n % b, Nat.mod_lt n (by omega), List.mem_singleton.1 h⟩

theorem exists_head_toDigits (hb : 1 < b) (hn : 0 < n) :
    ∃ d ds, 0 < d ∧ d < b ∧ Nat.toDigits b n = Nat.digitChar d :: ds := by
  induction n using Nat.strongRecOn with
  | ind n ih =>
    rw [Nat.toDigits_eq_if hb]
    split
    · next h => exact ⟨n, [], hn, h, rfl⟩
    · next h =>
      have hdiv : 0 < n / b := Nat.div_pos (Nat.le_of_not_lt h) (by omega)
      obtain ⟨d, ds, hd, hlt, he⟩ := ih _ (Nat.div_lt_self hn hb) hdiv
      exact ⟨d, _, hd, hlt, by rw [he]; rfl⟩

theorem value_toDigits (hb : 1 < b) (hb' : b ≤ 16) (n : Nat) : value b (Nat.toDigits b n) = n := by
  induction n using Nat.strongRecOn with
  | ind n ih =>
    rw [Nat.toDigits_eq_if hb]
    split
    · next h =>
      have hd := digitValue_digitChar (d := n) (by omega)
      simpa [value] using hd
    · next h =>
      have hmod : n % b < b := Nat.mod_lt n (by omega)
      rw [value_append, ih _ (Nat.div_lt_self (by omega) hb), digitValue_digitChar (by omega),
        Nat.mul_comm, Nat.div_add_mod]

theorem toDigits_lt (hb : 1 < b) (hb' : b ≤ 16) : ∀ c ∈ Nat.toDigits b n, digitValue c < b := by
  intro c hc
  obtain ⟨d, hd, rfl⟩ := exists_of_mem_toDigits hb hc
  rwa [digitValue_digitChar (by omega)]

theorem lowLine_not_mem_toDigits (hb : 1 < b) (hb' : b ≤ 16) : '_' ∉ Nat.toDigits b n := by
  intro h
  have hlt := toDigits_lt hb hb' _ h
  have hv : digitValue '_' = 16 := rfl
  omega

/-! What is read -/

/-- The mark of the binary radix is no binary digit. -/
theorem dropMark_of_digits (h : ∀ c ∈ ds, digitValue c < b) : dropMark b ds = ds := by
  unfold dropMark
  split
  · next c ds =>
    have hc := h c (by simp)
    refine if_neg fun hm => ?_
    simp only [Bool.and_eq_true, Bool.or_eq_true, decide_eq_true_eq] at hm
    obtain ⟨rfl, rfl | rfl⟩ := hm
    · exact absurd hc (by decide)
    · exact absurd hc (by decide)
  · rfl

/-- More digits than any literal needs that is not too large. -/
def digitLimit : Nat := 39

def ofNat (n : Nat) (literal : List Char) : Except LexError Token :=
  if (n : Int) ≤ Whole.greatest then .ok (.int n) else .error ⟨.tooLarge, literal⟩

theorem ofNat_of_le (h : (n : Int) ≤ Whole.greatest) (literal : List Char) :
    ofNat n literal = .ok (.int n) := if_pos h

theorem integer_of_filter (hb : 1 < b) (hb' : b ≤ 16) {body : List Char}
    (h : body.filter (· ≠ '_') = Nat.toDigits b n) (hn : n < 10 ^ digitLimit)
    (literal : List Char) : integer b body literal = ofNat n literal := by
  have hlt := toDigits_lt (n := n) hb hb'
  have hlimit : b = 10 → (Nat.toDigits b n).length ≤ decimalDigitLimit := by
    rintro rfl
    have hlen := (Nat.length_toDigits_le_iff hb (by decide)).2 hn
    exact Nat.le_trans hlen (by decide)
  have hds : dropMark b (body.filter (· ≠ '_')) = Nat.toDigits b n := by
    rw [h, dropMark_of_digits hlt]
  rw [integer_of_short literal hds Nat.toDigits_ne_nil hlt hlimit, value_toDigits hb hb', ofNat]

end Literal

/-! Groups of digits -/

namespace Display

open Literal

theorem filter_groupFromRight (size : Nat) {ds : List Char} (h : '_' ∉ ds) :
    (groupFromRight size ds).filter (· ≠ '_') = ds := by
  induction ds with
  | nil => rfl
  | cons c ds ih =>
    obtain ⟨hc, hds⟩ := List.ne_and_not_mem_of_not_mem_cons h
    have ih := ih hds
    rw [groupFromRight]
    split
    · simpa [Ne.symm hc] using ih
    · simpa [Ne.symm hc] using ih

theorem filter_group (size : Nat) {ds : List Char} (h : '_' ∉ ds) :
    (group ds size).filter (· ≠ '_') = ds := by
  unfold group
  split
  · refine List.filter_eq_self.2 fun d hd => decide_eq_true ?_
    rintro rfl
    exact h hd
  · exact filter_groupFromRight size h

theorem exists_group_cons (size : Nat) (c : Char) (ds : List Char) :
    ∃ t, group (c :: ds) size = c :: t := by
  unfold group
  split
  · exact ⟨ds, rfl⟩
  · rw [groupFromRight]
    split
    · exact ⟨_, rfl⟩
    · exact ⟨_, rfl⟩

theorem group_zero (size : Nat) : group ['0'] size = ['0'] := by
  unfold group
  split <;> rfl

/-- The chunks of a text with digits in groups. The first digit is in front of a whole number of groups
when the number of those behind it is one of `size`. -/
theorem splitOn_groupFromRight {size : Nat} (hs : 0 < size) {c : Char} {ds : List Char}
    (h : '_' ∉ c :: ds) : ∃ first rest,
    (groupFromRight size (c :: ds)).splitOn '_' = first :: rest ∧
      first.length = ds.length % size + 1 ∧ ∀ chunk ∈ rest, chunk.length = size := by
  induction ds generalizing c with
  | nil =>
    refine ⟨[c], [], ?_, by simp, by simp⟩
    exact List.splitOn_eq_singleton h
  | cons d ds ih =>
    obtain ⟨hc, hds⟩ := List.ne_and_not_mem_of_not_mem_cons h
    obtain ⟨first, rest, hsplit, hfirst, hrest⟩ := ih hds
    have hlt : ds.length % size < size := Nat.mod_lt _ hs
    have hcons : (c == '_') = false := beq_false_of_ne (Ne.symm hc)
    rw [groupFromRight]
    split
    · next hsep =>
      -- the group behind the digit is full
      have hfull : (ds.length + 1) % size = 0 := by simpa using hsep
      refine ⟨[c], first :: rest, ?_, by simp [hfull], ?_⟩
      · rw [← hsplit, List.splitOn_cons_eq_if_modifyHead, hcons, List.splitOn_cons_eq_if_modifyHead]
        rfl
      · have hlen : first.length = size := by
          rw [hfirst]
          exact Nat.le_antisymm hlt (Nat.le_of_dvd (by omega)
            (Nat.dvd_of_mod_eq_zero (by rw [Nat.mod_add_mod]; exact hfull)))
        exact List.forall_mem_cons.2 ⟨hlen, hrest⟩
    · next hsep =>
      have hpart : (ds.length + 1) % size ≠ 0 := by simpa using hsep
      have hlen : (ds.length + 1) % size = ds.length % size + 1 := by
        rw [← Nat.mod_add_mod]
        refine Nat.mod_eq_of_lt (Nat.lt_of_le_of_ne hlt fun he => hpart ?_)
        rw [← Nat.mod_add_mod, he, Nat.mod_self]
      refine ⟨c :: first, rest, ?_, by simp [hfirst, hlen], hrest⟩
      rw [List.splitOn_cons_eq_if_modifyHead, hcons, hsplit]
      rfl

/-- Grouping is exact. Without its low lines the text is that of the digits; between them every chunk has
`size` digits, except the first, which has at most as many and at least one. -/
theorem splitOn_group {digits : List Char} {size : Nat} (h : '_' ∉ digits) (hs : 0 < size) :
    (group digits size).filter (· ≠ '_') = digits ∧
      ∃ first rest, (group digits size).splitOn '_' = first :: rest ∧
        (∀ chunk ∈ rest, chunk.length = size) ∧
        (digits ≠ [] → 1 ≤ first.length ∧ first.length ≤ size) := by
  refine ⟨filter_group size h, ?_⟩
  rw [group, if_neg (Nat.ne_of_gt hs)]
  cases digits with
  | nil => exact ⟨[], [], List.splitOn_nil _, by simp, by simp⟩
  | cons c ds =>
    obtain ⟨first, rest, hsplit, hfirst, hrest⟩ := splitOn_groupFromRight hs h
    have hlt : ds.length % size < size := Nat.mod_lt _ hs
    exact ⟨first, rest, hsplit, hrest, fun _ => by omega⟩

theorem splitOn_group_seven : '_' ∉ "1234567".toList ∧ 0 < 3 ∧
    group "1234567".toList 3 = "1_234_567".toList ∧
    (group "1234567".toList 3).filter (· ≠ '_') = "1234567".toList ∧
    ∃ first rest, (group "1234567".toList 3).splitOn '_' = first :: rest ∧
      (∀ chunk ∈ rest, chunk.length = 3) ∧
      ("1234567".toList ≠ [] → 1 ≤ first.length ∧ first.length ≤ 3) :=
  have hdigits : '_' ∉ "1234567".toList := by decide
  ⟨hdigits, by decide, by decide, splitOn_group hdigits (by decide)⟩

/-! Integers -/

/-- An integer without its sign. -/
def natural (radix : Radix) (size n : Nat) : List Char :=
  mark radix n ++ group (Nat.toDigits radix.base n) size

theorem int_eq (radix : Radix) (size : Nat) (n : Int) :
    int radix size n = (if n < 0 then ['-'] else []) ++ natural radix size n.natAbs := by
  have hmark : mark radix n = mark radix (n.natAbs : Int) := by
    unfold mark
    simp only [Int.natCast_eq_zero, Int.natAbs_eq_zero]
  rw [int, natural, hmark, List.append_assoc]

theorem toList_toString (n : Int) : (toString n).toList = int .decimal 0 n := by
  have hnat (m : Nat) : m.repr.toList = natural .decimal 0 m := by
    rw [Nat.repr_eq_ofList_toDigits, String.toList_ofList]
    rfl
  rw [int_eq, Int.toString_eq_repr, Int.repr_eq_if]
  split
  · next h =>
    rw [if_neg (by omega), hnat, show n.toNat = n.natAbs by omega]
    rfl
  · next h =>
    rw [if_pos (by omega), String.toList_append, hnat, show (-n).toNat = n.natAbs by omega]
    rfl

theorem digit_facts {d : Nat} (h : d < 16) : isHexOrLowLine (Nat.digitChar d) = true ∧
    (d < 10 → isAsciiDigit (Nat.digitChar d) = true) ∧ (0 < d → Nat.digitChar d ≠ '0') := by
  have hall : ∀ d < 16, isHexOrLowLine (Nat.digitChar d) = true ∧
      (d < 10 → isAsciiDigit (Nat.digitChar d) = true) ∧ (0 < d → Nat.digitChar d ≠ '0') := by
    decide
  exact hall d h

theorem digits_of_filter {b n : Nat} {gs : List Char} (hb : 1 < b) (hb' : b ≤ 10)
    (h : gs.filter (· ≠ '_') = Nat.toDigits b n) : ∀ c ∈ gs, isDigitOrLowLine c = true := by
  intro c hc
  by_cases hl : c = '_'
  · subst hl
    rfl
  · have hmem : c ∈ Nat.toDigits b n := h ▸ List.mem_filter.2 ⟨hc, decide_eq_true hl⟩
    obtain ⟨d, hd, rfl⟩ := exists_of_mem_toDigits hb hmem
    simp [isDigitOrLowLine, (digit_facts (d := d) (by omega)).2.1 (by omega)]

theorem isLiteral_zero : IsLiteral k ['0'] (.ok (.int 0)) :=
  ⟨.decimal, rfl, Group.mem_decimal.2 (.inl rfl), rfl⟩

theorem isLiteral_one : IsLiteral k ['1'] (.ok (.int 1)) :=
  ⟨.decimal, rfl, Group.mem_decimal.2 (.inr ⟨'1', [], rfl, rfl, by decide, nofun⟩), rfl⟩

/-- In decimal and octal, the first digit tells a number from zero. -/
theorem exists_grouped {b n : Nat} (hb : 1 < b) (hb' : b ≤ 10) (hn : 0 < n) (size : Nat) :
    ∃ c t, group (Nat.toDigits b n) size = c :: t ∧ isAsciiDigit c = true ∧ c ≠ '0' ∧
      (c :: t).filter (· ≠ '_') = Nat.toDigits b n := by
  have hf := filter_group size (lowLine_not_mem_toDigits (n := n) hb (by omega))
  obtain ⟨d, ds, hd, hlt, he⟩ := exists_head_toDigits hb hn
  obtain ⟨t, ht⟩ := exists_group_cons size (Nat.digitChar d) ds
  obtain ⟨-, hdigit, hzero⟩ := digit_facts (d := d) (by omega)
  rw [← he] at ht
  exact ⟨_, t, ht, hdigit (by omega), hzero hd, ht ▸ hf⟩

theorem isLiteral_marked {b n : Nat} {m : Char} (hm : isRadixMark m = true) (hb : 1 < b)
    (hb' : b ≤ 16) (hradix : ∀ ds, radixOf ('0' :: m :: ds) = b) (size : Nat)
    (hn : n < 10 ^ digitLimit) :
    IsLiteral k ('0' :: m :: group (Nat.toDigits b n) size)
      (Literal.ofNat n ('0' :: m :: group (Nat.toDigits b n) size)) := by
  have hf := filter_group size (lowLine_not_mem_toDigits (n := n) hb hb')
  refine ⟨.radix, rfl, Group.mem_radix.2 ⟨m, _, rfl, hm, fun c hc => ?_⟩, ?_⟩
  · by_cases hl : c = '_'
    · subst hl
      rfl
    · have hmem : c ∈ Nat.toDigits b n := hf ▸ List.mem_filter.2 ⟨hc, decide_eq_true hl⟩
      obtain ⟨d, hd, rfl⟩ := exists_of_mem_toDigits hb hmem
      exact (digit_facts (by omega)).1
  · simp only [Lexeme.token?, hradix, List.drop_succ_cons, List.drop_zero]
    rw [integer_of_filter hb hb' hf hn]

theorem isLiteral_natural (radix : Radix) (size : Nat) {n : Nat} (hn : n < 10 ^ digitLimit) :
    IsLiteral k (natural radix size n) (Literal.ofNat n (natural radix size n)) := by
  have hzero : Literal.ofNat 0 ['0'] = .ok (.int 0) := rfl
  cases radix with
  | binary => exact isLiteral_marked rfl (by decide) (by decide) (fun _ => rfl) size hn
  | hexadecimal => exact isLiteral_marked rfl (by decide) (by decide) (fun _ => rfl) size hn
  | octal =>
    obtain rfl | hpos := Nat.eq_zero_or_pos n
    · have htext : natural .octal size 0 = ['0'] := group_zero size
      rw [htext, hzero]
      exact isLiteral_zero
    · obtain ⟨c, t, hg, -, -, hf⟩ := exists_grouped (b := 8) (by decide) (by decide) hpos size
      have ht := digits_of_filter (by decide) (by decide) hf
      have hmark : mark .octal n = ['0'] := by
        simp [mark, Radix.mark, Nat.ne_of_gt hpos]
      have htext : natural .octal size n = '0' :: c :: t := by
        rw [natural, hmark]
        exact congrArg ('0' :: ·) hg
      rw [htext]
      refine ⟨.octal, rfl, Group.mem_octal.2 ⟨c, t, rfl, ht⟩, ?_⟩
      simp only [Lexeme.token?, List.drop_succ_cons, List.drop_zero]
      rw [integer_of_filter (by decide) (by decide) hf hn]
  | decimal =>
    obtain rfl | hpos := Nat.eq_zero_or_pos n
    · have htext : natural .decimal size 0 = ['0'] := group_zero size
      rw [htext, hzero]
      exact isLiteral_zero
    · obtain ⟨c, t, hg, hc, h₀, hf⟩ := exists_grouped (b := 10) (by decide) (by decide) hpos size
      obtain ⟨-, ht⟩ := List.forall_mem_cons.1 (digits_of_filter (by decide) (by decide) hf)
      have htext : natural .decimal size n = c :: t := hg
      rw [htext]
      refine ⟨.decimal, rfl, Group.mem_decimal.2 (.inr ⟨c, t, rfl, hc, h₀, ht⟩), ?_⟩
      simp only [Lexeme.token?]
      rw [integer_of_filter (by decide) (by decide) hf hn]

theorem isLiteral_int (radix : Radix) (size : Nat) {n : Nat} (hn : (n : Int) ≤ Whole.greatest) :
    IsLiteral k (natural radix size n) (.ok (.int n)) := by
  have hgreatest : Whole.greatest = 2 ^ 127 - 1 := rfl
  have hlimit : 10 ^ digitLimit = 10 ^ 39 := rfl
  have h := isLiteral_natural (k := k) radix size (n := n) (by omega)
  rwa [ofNat_of_le hn] at h

/-- A natural number in range that is shown, in any radix and with its digits in groups of any size, is
one token: that of the number. -/
theorem tokenize_int (radix : Radix) (size : Nat) {n : Int} (h₀ : 0 ≤ n) (hn : n ≤ Whole.greatest) :
    tokenize k (int radix size n) = .ok [.int n] := by
  have hnat : (n.natAbs : Int) = n := Int.natAbs_of_nonneg h₀
  have hliteral := isLiteral_int (k := k) radix size (n := n.natAbs) (by omega)
  have hlexes : Lexes k (natural radix size n.natAbs) [.int n.natAbs] [] := hliteral.lexes nofun
  rw [hnat] at hlexes
  rw [int_eq, if_neg (by omega)]
  exact hlexes.tokenize_eq

theorem tokenize_int_octal : (0 : Int) ≤ 668 ∧ (668 : Int) ≤ Whole.greatest ∧
    int .octal 2 668 = "012_34".toList ∧ tokenize .standard (int .octal 2 668) = .ok [.int 668] := by
  have hle : (668 : Int) ≤ Whole.greatest := by decide
  exact ⟨by decide, hle, by decide, tokenize_int .octal 2 (by decide) hle⟩

theorem toList_toString_of_nonneg {n : Int} (h : 0 ≤ n) :
    (toString n).toList = natural .decimal 0 n.natAbs := by
  rw [toList_toString, int_eq, if_neg (by omega)]
  rfl

theorem not_exponentMark_natural {n : Nat} {w : List Char} {m : Char}
    (h : natural .decimal 0 n = w ++ [m]) : isExponentMark m = false := by
  have hm : m ∈ Nat.toDigits 10 n := by
    have htext : natural .decimal 0 n = Nat.toDigits 10 n := rfl
    rw [← htext, h]
    simp
  exact not_mark_of_digit (Nat.isDigit_of_mem_toDigits (by decide) (by decide) hm)

end Display

end UnitCalculator
