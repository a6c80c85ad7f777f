import UnitCalculator.Proofs.Display.Integer
import UnitCalculator.Proofs.Grammar.Completeness
import UnitCalculator.Proofs.Units.Normal

/-!
Units as they are shown. The text of a canonical unit is cut into the tokens of a quotient of
powers, one level for each of its symbols, and what is read as that quotient is the same unit again.
-/

set_option autoImplicit false

namespace UnitCalculator

open Text Grammar UnitCalculator.Units

variable {k : CharClasses} {names : Names}

/-! The quotient that the text of a unit stands for -/

namespace Display

def powered (names : Names) (p : String × Int) : Derivation names .unitTerm :=
  if p.2 = 1 then .unitPlain (.symbol p.1) else .unitRaised (.symbol p.1) p.2

def chain (o : Operator) (ho : isUnitOperator o = true) (tail : Derivation names .unitFactors) :
    Exponents → Derivation names .unitFactors
  | [] => tail
  | p :: ps => .unitFactor o ho (powered names p) (chain o ho tail ps)

theorem isUnitOperator_times : isUnitOperator .times = true := rfl

theorem isUnitOperator_slash : isUnitOperator .slash = true := rfl

/-- The first power, or one where nothing stands above the bar, and the other powers above it. -/
def leading (names : Names) : Exponents → Derivation names .unitTerm × Exponents
  | [] => (.unitPlain .one, [])
  | p :: ps => (powered names p, ps)

def below (names : Names) (f : Fraction) : Derivation names .unitFactors :=
  chain .slash isUnitOperator_slash .noUnitFactor f.denominator

def quotient (names : Names) (f : Fraction) : Derivation names .unit :=
  .unit (leading names f.numerator).1
    (chain .times isUnitOperator_times (below names f) (leading names f.numerator).2)

/-! Its levels -/

@[simp] theorem levels_powered (p : String × Int) : (powered names p).levels = 0 := by
  unfold powered
  split <;> rfl

@[simp] theorem levels_chain {o : Operator} (ho : isUnitOperator o = true)
    (tail : Derivation names .unitFactors) (ps : Exponents) :
    (chain o ho tail ps).levels = ps.length + tail.levels := by
  induction ps with
  | nil => simp [chain]
  | cons p ps ih =>
    simp only [chain, Derivation.levels, levels_powered, ih, List.length_cons]
    omega

theorem levels_quotient_le (names : Names) (f : Fraction) :
    (quotient names f).levels ≤ f.numerator.length + f.denominator.length + 1 := by
  unfold quotient below leading
  cases f.numerator with
  | nil => simp
  | cons p ps => simp

/-! Its tokens -/

/-- A symbol that can be typed, with an exponent that can be read. -/
structure IsPower (k : CharClasses) (p : String × Int) : Prop where
  identifier : IsIdentifier k p.1
  positive : 0 < p.2
  le_maxExponent : p.2 ≤ maxExponent

/-- Nothing that follows can go on with a symbol or with its exponent. -/
def IsBar (rest : List Char) : Prop :=
  ∀ c, rest.head? = some c → isOperatorChar c = true ∧ isSign c = false

def chainText (c : Char) (ps : Exponents) : List Char :=
  ps.flatMap fun p => c :: (powerText p).toList

theorem not_isNumeral_of_operator {c : Char} (h : isOperatorChar c = true) :
    Group.isNumeral c = false := by
  have hall : ("+-*/%^(),[]=".toList.all fun c => !Group.isNumeral c) = true := by decide
  simpa using List.all_eq_true.1 hall c (List.contains_iff_mem.1 h)

theorem closes_of_operator {c : Char} (h : isOperatorChar c = true) (hs : isSign c = false)
    (x : List Char) : Group.Closes x c := by
  refine ⟨not_isNumeral_of_operator h, fun hs' => ?_⟩
  rw [hs] at hs'
  cases hs'

theorem word_of_operator {c : Char} (h : isOperatorChar c = true) : k.word c = false := by
  obtain ⟨ha, hd, -⟩ := Group.ascii_of_isOperatorChar h
  rw [CharClasses.word, Group.letter_of_isOperatorChar h, k.digit_ascii c ha, hd]
  rfl

section

variable {rest : List Char} (hr : IsBar rest)

include hr

theorem IsBar.closes (x : List Char) (c : Char) (hc : rest.head? = some c) : Group.Closes x c :=
  closes_of_operator (hr c hc).1 (hr c hc).2 x

theorem IsBar.word (c : Char) (hc : rest.head? = some c) : k.word c = false :=
  word_of_operator (hr c hc).1

end

theorem isBar_cons {c : Char} (h : isOperatorChar c = true) (hs : isSign c = false)
    (rest : List Char) : IsBar (c :: rest) := by
  intro d hd
  obtain rfl : c = d := by simpa using hd
  exact ⟨h, hs⟩

theorem lexes_exponent {n : Int} (h₀ : 0 ≤ n) (hn : n ≤ Whole.greatest) {rest : List Char}
    (hr : IsBar rest) : Lexes k ('^' :: (toString n).toList) [.op .caret, .int n] rest := by
  have hcaret : Lexes k ['^'] [.op .caret] ((toString n).toList ++ rest) :=
    .operator (by decide) rfl nofun
  have hnumber : Lexes k (toString n).toList [.int n] rest := by
    have hl := isLiteral_int (k := k) .decimal 0 (n := n.natAbs) (by omega)
    rw [Int.natAbs_of_nonneg h₀] at hl
    rw [toList_toString_of_nonneg h₀]
    exact hl.lexes (hr.closes _)
  exact hcaret.append hnumber

theorem lexes_powered {p : String × Int} (hp : IsPower k p) {rest : List Char}
    (hr : IsBar rest) : Lexes k (powerText p).toList (powered names p).yield rest := by
  obtain ⟨hs, hpos, hle⟩ := hp
  unfold powerText powered
  split
  · exact .identifier hs hr.word
  · have hgreatest : Whole.greatest = 2 ^ 127 - 1 := rfl
    have hmax : maxExponent = 64 := rfl
    have hexponent := lexes_exponent (k := k) (n := p.2) (by omega) (by omega) hr
    have hsymbol : Lexes k p.1.toList [.ident p.1] ('^' :: (toString p.2).toList ++ rest) :=
      .identifier hs (isBar_cons rfl rfl _).word
    rw [String.toList_append, String.toList_append, List.append_assoc]
    exact hsymbol.append hexponent

theorem IsPower.exists_cons {p : String × Int} (hp : IsPower k p) :
    ∃ c t, (powerText p).toList = c :: t ∧ k.letter c = true := by
  obtain ⟨c, t, hs, hc⟩ := hp.identifier.exists_cons
  unfold powerText
  split
  · exact ⟨c, t, hs, hc⟩
  · exact ⟨c, _, by rw [String.toList_append, String.toList_append, hs]; rfl, hc⟩

theorem unitOperator_char {o : Operator} (ho : isUnitOperator o = true) {c : Char}
    (hc : o.text.toList = [c]) :
    o ∈ Operator.all ∧ isOperatorChar c = true ∧ isSign c = false := by
  cases o with
  | times =>
    obtain rfl : '*' = c := by simpa [Operator.text] using hc
    decide
  | slash =>
    obtain rfl : '/' = c := by simpa [Operator.text] using hc
    decide
  | _ => cases ho

theorem lexes_chain {o : Operator} (ho : isUnitOperator o = true) {c : Char}
    (hc : o.text.toList = [c]) {tail : Derivation names .unitFactors} {b rest : List Char}
    (hb : Lexes k b tail.yield rest) (hr : IsBar (b ++ rest)) {ps : Exponents}
    (hps : ∀ p ∈ ps, IsPower k p) :
    Lexes k (chainText c ps ++ b) (chain o ho tail ps).yield rest ∧
      IsBar (chainText c ps ++ b ++ rest) := by
  have hop := unitOperator_char ho hc
  induction ps with
  | nil => exact ⟨hb, hr⟩
  | cons p ps ih =>
    obtain ⟨hp, hps⟩ := List.forall_mem_cons.1 hps
    obtain ⟨hchain, hbar⟩ := ih hps
    have hpower : Lexes k ((powerText p).toList ++ (chainText c ps ++ b))
        ((powered names p).yield ++ (chain o ho tail ps).yield) rest :=
      (lexes_powered hp hbar).append hchain
    have hfirst : Lexes k [c] [.op o]
        ((powerText p).toList ++ (chainText c ps ++ b) ++ rest) := by
      obtain ⟨d, t, hd, hl⟩ := hp.exists_cons
      refine .operator hop.1 hc fun _ h => ?_
      rw [hd] at h
      obtain rfl : d = '/' := by simpa using h
      rw [Group.letter_of_isOperatorChar rfl] at hl
      cases hl
    have htext : chainText c (p :: ps) ++ b =
        [c] ++ ((powerText p).toList ++ (chainText c ps ++ b)) := by
      simp [chainText]
    rw [htext]
    exact ⟨hfirst.append hpower, isBar_cons hop.2.1 hop.2.2 _⟩

def leadingText : Exponents → List Char
  | [] => ['1']
  | p :: _ => (powerText p).toList

theorem fraction_toList {f : Fraction} (hf : ∀ p ∈ f.numerator, IsPower k p) :
    (fraction f).toList = leadingText f.numerator ++
      (chainText '*' f.numerator.tail ++ (chainText '/' f.denominator ++ [])) := by
  have hbelow : (String.join (f.denominator.map fun p => "/" ++ powerText p)).toList =
      chainText '/' f.denominator := by
    rw [String.toList_join, List.flatMap_map]
    simp [chainText]
  have habove (p : String × Int) (ps : Exponents) :
      (String.intercalate "*" ((p :: ps).map powerText)).toList =
        (powerText p).toList ++ chainText '*' ps := by
    induction ps generalizing p with
    | nil => simp [chainText]
    | cons q ps ih =>
      have hq := ih q
      rw [List.map_cons] at hq
      rw [List.map_cons, List.map_cons, String.intercalate_cons_cons, String.toList_append,
        String.toList_append, hq]
      simp [chainText]
  unfold fraction
  simp only [String.toList_append, hbelow, List.append_nil]
  cases hn : f.numerator with
  | nil => rfl
  | cons p ps =>
    rw [hn] at hf
    obtain ⟨c, t, hp, -⟩ := (hf p List.mem_cons_self).exists_cons
    have hne : (String.intercalate "*" ((p :: ps).map powerText)).isEmpty = false := by
      refine Bool.eq_false_iff.2 fun he => ?_
      have hs := habove p ps
      rw [String.utf8ByteSize_eq_zero_iff.1 (beq_iff_eq.1 he), hp] at hs
      cases hs
    rw [hne, if_neg Bool.false_ne_true, habove]
    simp [leadingText]

theorem lexes_quotient {f : Fraction} (hf : ∀ p ∈ f.numerator ++ f.denominator, IsPower k p)
    {rest : List Char} (hr : IsBar rest) :
    Lexes k (fraction f).toList (quotient names f).yield rest := by
  obtain ⟨n, d⟩ := f
  obtain ⟨hn, hd⟩ := List.forall_mem_append.1 hf
  have hnil : Lexes k [] (.noUnitFactor : Derivation names .unitFactors).yield rest := .nil k rest
  obtain ⟨hbelow, hbar⟩ := lexes_chain isUnitOperator_slash (c := '/') rfl hnil hr hd
  have htail : ∀ p ∈ n.tail, IsPower k p := fun p hp => hn p (List.mem_of_mem_tail hp)
  obtain ⟨habove, hbar⟩ := lexes_chain isUnitOperator_times (c := '*') rfl hbelow hbar htail
  rw [fraction_toList hn]
  cases n with
  | nil =>
    exact (isLiteral_one.lexes (hbar.closes _)).append habove
  | cons p ps => exact (lexes_powered (hn p (by simp)) hbar).append habove

/-! Its value -/

/-- A unit that can be written, is not refused, and scales no number. -/
structure Fits (u : Term) : Prop where
  written : Written u
  plain : Plain u
  small : ¬TooLarge u

theorem Fits.binary {o : Operator} (ho : isUnitOperator o = true) {u v : Term} (hu : Fits u)
    (hv : Fits v) : Fits (.binary o u v) := by
  have hne : o ≠ .caret := by
    rintro rfl
    cases ho
  refine ⟨written_of_isUnitOperator ho hu.written hv.written, ?_, ?_⟩
  · intro k s h
    cases h with
    | left _ h => exact hu.plain k s h
    | right _ h => exact hv.plain k s h
    | power _ _ => exact absurd rfl hne
  · rw [tooLarge_iff_exceeds, exceeds_binary hne, ← tooLarge_iff_exceeds, ← tooLarge_iff_exceeds]
    exact not_or.2 ⟨hu.small, hv.small⟩

theorem fits_one : Fits (.int 1) := by
  refine ⟨.one, ?_, ?_⟩
  · rintro k s h
    cases h
  · rintro ⟨k, v, n, h, -⟩
    cases h

structure IsAtomicPower (p : String × Int) : Prop where
  ne_dimensionless : p.1 ≠ dimensionless
  atomic : compound? p.1 = none
  positive : 0 < p.2
  le_maxExponent : p.2 ≤ maxExponent

variable {p : String × Int} {ps : Exponents}

theorem fits_powered (hp : IsAtomicPower p) : Fits (powered names p).tree := by
  obtain ⟨hs, ha, hpos, hle⟩ := hp
  have hsymbol : Fits (.name p.1) := by
    refine ⟨.symbol hs, fun k s h => ?_, ?_⟩
    · cases h
      exact ha
    · rintro ⟨k, v, n, h, -⟩
      cases h
  unfold powered
  split
  · exact hsymbol
  · refine ⟨.power hpos.le hsymbol.written, fun k s h => ?_, ?_⟩
    · cases h with
      | left hne _ => exact absurd rfl hne
      | right hne _ => exact absurd rfl hne
      | power _ h => exact hsymbol.plain _ s h
    · rintro ⟨k, v, n, h, hn⟩
      cases h with
      | here => omega
      | left hne _ => exact absurd rfl hne
      | right hne _ => exact absurd rfl hne
      | power _ h => cases h

theorem fits_chain {o : Operator} (ho : isUnitOperator o = true)
    {tail : Derivation names .unitFactors} (ht : ∀ l, Fits l → Fits (tail.tree l))
    {ps : Exponents} (hps : ∀ p ∈ ps, IsAtomicPower p) {l : Term} (hl : Fits l) :
    Fits ((chain o ho tail ps).tree l) := by
  induction ps generalizing l with
  | nil => exact ht l hl
  | cons p ps ih =>
    obtain ⟨hp, hps⟩ := List.forall_mem_cons.1 hps
    exact ih hps (hl.binary ho (fits_powered hp))

/-- How an operator of a unit counts what is on its right. -/
def weight (o : Operator) : Int := if o = .slash then -1 else 1

theorem dimension_binary {o : Operator} (ho : isUnitOperator o = true) (u v : Term) (s : String) :
    dimension (.binary o u v) s = dimension u s + weight o * dimension v s := by
  cases o with
  | times => simp [dimension, weight]
  | slash => simp [dimension, weight]; omega
  | _ => cases ho

theorem dimension_powered (hp : IsAtomicPower p) (s : String) :
    dimension (powered names p).tree s = if s = p.1 then p.2 else 0 := by
  have hsymbol : dimension (.name p.1) s = if s = p.1 then 1 else 0 := by
    rw [dimension, atom_of_atomic hp.atomic, single]
  unfold powered
  split
  · next h₁ => rw [h₁]; exact hsymbol
  · show p.2 * dimension (.name p.1) s = _
    rw [hsymbol]
    split <;> simp

theorem count_cons (hs : Exponents.Sorted (p :: ps)) (s : String) :
    Exponents.count s (p :: ps) = (if s = p.1 then p.2 else 0) + Exponents.count s ps := by
  obtain ⟨t, n⟩ := p
  by_cases h : s = t
  · subst h
    have hnone := hs.count?_head
    simp only at hnone
    simp [Exponents.count, Exponents.count?, hnone]
  · simp [Exponents.count, Exponents.count?, h]

theorem dimension_chain {o : Operator} (ho : isUnitOperator o = true)
    {tail : Derivation names .unitFactors} {e : Dimension}
    (ht : ∀ l s, dimension (tail.tree l) s = dimension l s + e s) {ps : Exponents}
    (hps : ∀ p ∈ ps, IsAtomicPower p) (hs : Exponents.Sorted ps) (l : Term) (s : String) :
    dimension ((chain o ho tail ps).tree l) s =
      dimension l s + (weight o * Exponents.count s ps + e s) := by
  induction ps generalizing l with
  | nil =>
    rw [show Exponents.count s [] = 0 from rfl, chain, ht]
    omega
  | cons p ps ih =>
    obtain ⟨hp, hps⟩ := List.forall_mem_cons.1 hps
    have htree : (chain o ho tail (p :: ps)).tree l =
        (chain o ho tail ps).tree (.binary o l (powered names p).tree) := rfl
    rw [htree, ih hps hs.tail, dimension_binary ho, dimension_powered hp, count_cons hs,
      Int.mul_add]
    omega

theorem height_powered_le (names : Names) (p : String × Int) :
    (powered names p).tree.height ≤ 3 := by
  unfold powered
  split
  · exact (by decide : 1 ≤ 3)
  · exact Nat.le_refl 3

theorem height_chain_le {o : Operator} (ho : isUnitOperator o = true)
    {tail : Derivation names .unitFactors} {n : Nat}
    (ht : ∀ l : Term, (tail.tree l).height ≤ max l.height 3 + n) (ps : Exponents) (l : Term) :
    ((chain o ho tail ps).tree l).height ≤ max l.height 3 + (ps.length + n) := by
  induction ps generalizing l with
  | nil =>
    show (tail.tree l).height ≤ _
    rw [List.length_nil, Nat.zero_add]
    exact ht l
  | cons p ps ih =>
    have hp := height_powered_le names p
    have hi := ih (.binary o l (powered names p).tree)
    have hb : (Term.binary o l (powered names p).tree).height =
      1 + max l.height (powered names p).tree.height := rfl
    have htree : (chain o ho tail (p :: ps)).tree l =
        (chain o ho tail ps).tree (.binary o l (powered names p).tree) := rfl
    rw [htree, List.length_cons]
    omega

theorem height_quotient_le (names : Names) (f : Fraction) : (quotient names f).tree.height ≤
    f.numerator.length + f.denominator.length + 3 := by
  obtain ⟨n, d⟩ := f
  have hbelow (l : Term) : ((below names ⟨n, d⟩).tree l).height ≤ max l.height 3 + (d.length + 0) :=
    height_chain_le isUnitOperator_slash (fun l => by
      show l.height ≤ _
      omega) d l
  cases n with
  | nil =>
    have hone : (Term.int 1).height = 2 := rfl
    have h := height_chain_le isUnitOperator_times hbelow [] (Term.int 1)
    exact Nat.le_trans h (by simp only [hone, List.length_nil]; omega)
  | cons p ps =>
    have hp := height_powered_le names p
    have h := height_chain_le isUnitOperator_times hbelow ps (powered names p).tree
    exact Nat.le_trans h (by simp only [List.length_cons]; omega)

theorem fits_quotient (names : Names) {f : Fraction}
    (hf : ∀ p ∈ f.numerator ++ f.denominator, IsAtomicPower p) :
    Fits (quotient names f).tree := by
  obtain ⟨n, d⟩ := f
  obtain ⟨hn, hd⟩ := List.forall_mem_append.1 hf
  have hnone (l : Term) (hl : Fits l) :
      Fits ((.noUnitFactor : Derivation names .unitFactors).tree l) := hl
  have hbelow (l : Term) (hl : Fits l) : Fits ((below names ⟨n, d⟩).tree l) :=
    fits_chain isUnitOperator_slash hnone hd hl
  cases n with
  | nil => exact fits_chain isUnitOperator_times hbelow (List.forall_mem_nil _) fits_one
  | cons p ps =>
    obtain ⟨hp, hps⟩ := List.forall_mem_cons.1 hn
    exact fits_chain isUnitOperator_times hbelow hps (fits_powered hp)

theorem dimension_quotient (names : Names) {f : Fraction}
    (hf : ∀ p ∈ f.numerator ++ f.denominator, IsAtomicPower p) (hn : Exponents.Sorted f.numerator)
    (hd : Exponents.Sorted f.denominator) :
    dimension (quotient names f).tree = dimensionOf (some f) := by
  obtain ⟨n, d⟩ := f
  obtain ⟨hfn, hfd⟩ := List.forall_mem_append.1 hf
  funext s
  have hnone (l : Term) (s : String) :
      dimension ((.noUnitFactor : Derivation names .unitFactors).tree l) s = dimension l s + 0 :=
    (Int.add_zero (dimension l s)).symm
  have hbelow (l : Term) (s : String) : dimension ((below names ⟨n, d⟩).tree l) s =
      dimension l s + (weight .slash * Exponents.count s d + 0) :=
    dimension_chain isUnitOperator_slash hnone hfd hd l s
  have htimes : weight .times = 1 := rfl
  have hslash : weight .slash = -1 := rfl
  rw [dimensionOf]
  cases n with
  | nil =>
    have h := dimension_chain isUnitOperator_times hbelow (List.forall_mem_nil _) hn (Term.int 1) s
    have hone : dimension (Term.int 1) s = 0 := rfl
    rw [hone, htimes, hslash] at h
    refine h.trans ?_
    simp only
    omega
  | cons p ps =>
    obtain ⟨hp, hps⟩ := List.forall_mem_cons.1 hfn
    have h := dimension_chain isUnitOperator_times hbelow hps hn.tail (powered names p).tree s
    rw [dimension_powered hp, htimes, hslash] at h
    have hcount := count_cons hn s
    refine h.trans ?_
    simp only
    omega

/-- A canonical unit of small exponents is read as itself. -/
theorem canonicalize_quotient {f : Fraction} (h : IsNormal (some f))
    (hle : ∀ p ∈ f.numerator ++ f.denominator, p.2 ≤ maxExponent) (a : Number) :
    canonicalize a (.bracketed (quotient names f).tree) = .ok ⟨a, some f⟩ := by
  have hc := h.fraction
  have hpowers : ∀ p ∈ f.numerator ++ f.denominator, IsAtomicPower p := fun p hp =>
    ⟨(hc.atomic p hp).1, (hc.atomic p hp).2, hc.positive p hp, hle p hp⟩
  have hfits := fits_quotient names hpowers
  obtain ⟨c, hw, hfactor⟩ := ofWritten_plain hfits.written hfits.small hfits.plain
  have he : canonicalize a (.bracketed (quotient names f).tree) =
      .ok ⟨a, cancelled c.numerator c.denominator⟩ := by
    rw [canonicalize_bracketed hfits.written, hw, Except.map, hfactor]
  have hdim := dimension_quotient names hpowers hc.sorted_numerator hc.sorted_denominator
  have hunit := (hfits.written.denotes he).eq_iff h.canonical.denotes
  rw [he, show cancelled c.numerator c.denominator = some f from hunit.2 hdim]

end Display

end UnitCalculator
