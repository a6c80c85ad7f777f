import UnitCalculator.Proofs.Display.Numeral
import UnitCalculator.Proofs.Display.Unit
import UnitCalculator.Proofs.Session.Symbols

/-!
Results that are typed again. What a session shows for a result is a line of which the value is
the result, whatever the radix and the groups of digits; but the least integer has no literal, and
a unit behind a complex number is read as that of its imaginary part alone.
-/

set_option autoImplicit false

namespace UnitCalculator

open Text Grammar Run Evaluate UnitCalculator.Units

variable {k : CharClasses} {names : Names} {env : Environment}

namespace Display

/-! Units behind numbers -/

def suffix : Option Fraction → List Char
  | none => []
  | some f => '[' :: ((fraction f).toList ++ [']'])

def brackets (names : Names) : Option Fraction → Derivation names .brackets
  | none => .noUnit
  | some f => .bracketed (quotient names f)

/-- A unit that fits into a line. -/
structure IsSmall (p : Option Fraction) : Prop where
  symbols_le : ∀ f, p = some f → f.numerator.length + f.denominator.length ≤ 90
  exponents_le : ∀ f, p = some f → ∀ s ∈ f.numerator ++ f.denominator, s.2 ≤ maxExponent

/-- A unit that can be typed as it is shown. -/
structure IsTyped (k : CharClasses) (p : Option Fraction) : Prop extends IsNormal p, IsSmall p where
  isIdentifier : ∀ f, p = some f → ∀ s ∈ f.numerator ++ f.denominator, IsIdentifier k s.1

theorem isTyped_none : IsTyped k none := ⟨isNormal_none, ⟨nofun, nofun⟩, nofun⟩

theorem isPlain_fraction {f : Fraction} (h : f.Canonical) : isPlain (.fraction f) = false := by
  have hne : f.numerator ++ f.denominator ≠ [] := by
    simpa [imp_iff_not_or] using h.nonempty
  obtain ⟨p, hp⟩ := List.exists_mem_of_ne_nil _ hne
  refine Bool.eq_false_iff.2 fun hall => (h.atomic p hp).1 ?_
  simpa using List.all_eq_true.1 hall p hp

theorem toList_term (radix : Radix) (size : Nat) {q : Quantity} (h : IsNormal q.unit) :
    (term radix size q.toTerm).toList = number radix size q.value ++ suffix q.unit := by
  obtain ⟨a, p⟩ := q
  cases p with
  | none =>
    have hterm : term radix size (Quantity.toTerm ⟨a, none⟩) =
        String.ofList (number radix size a) := rfl
    rw [hterm, String.toList_ofList]
    exact (List.append_nil _).symm
  | some f =>
    have hterm : term radix size (Quantity.toTerm ⟨a, some f⟩) =
        if isPlain (.fraction f) then String.ofList (number radix size a)
        else String.ofList (number radix size a) ++ "[" ++ fraction f ++ "]" := rfl
    rw [hterm, if_neg (Bool.eq_false_iff.1 (isPlain_fraction h.fraction))]
    simp only [String.toList_append, String.toList_ofList, List.append_assoc]
    rfl

theorem lexes_suffix (names : Names) {p : Option Fraction} (h : IsTyped k p) :
    Lexes k (suffix p) (brackets names p).yield [] := by
  cases p with
  | none => exact .nil k []
  | some f =>
    have hpowers : ∀ p ∈ f.numerator ++ f.denominator, IsPower k p := fun p hp =>
      ⟨h.isIdentifier f rfl p hp, h.fraction.positive p hp, h.exponents_le f rfl p hp⟩
    have hbar : IsBar [']'] := isBar_cons rfl rfl []
    have hclose : Lexes k [']'] [.op .closeBracket] [] := .operator (by decide) rfl nofun
    have hopen : Lexes k ['['] [.op .openBracket] ((fraction f).toList ++ [']'] ++ []) :=
      .operator (by decide) rfl nofun
    exact hopen.append ((lexes_quotient hpowers hbar).append hclose)

theorem isBar_suffix (p : Option Fraction) : IsBar (suffix p ++ []) := by
  cases p with
  | none => exact nofun
  | some f => exact isBar_cons rfl rfl _

theorem levels_brackets_le (names : Names) {p : Option Fraction} (hs : IsSmall p) :
    (brackets names p).levels ≤ 91 := by
  cases p with
  | none => exact Nat.zero_le _
  | some f =>
    have hf := hs.symbols_le f rfl
    have hl := levels_quotient_le names f
    show (quotient names f).levels ≤ 91
    omega

theorem height_brackets_le (names : Names) {p : Option Fraction} (hs : IsSmall p) :
    (brackets names p).tree.height ≤ 94 := by
  cases p with
  | none => exact (by decide : 1 ≤ 94)
  | some f =>
    have hf := hs.symbols_le f rfl
    have hh := height_quotient_le names f
    have hb : (brackets names (some f)).tree.height = 1 + (quotient names f).tree.height := rfl
    omega

theorem IsTyped.short {p : Option Fraction} (h : IsTyped k p) {a : Number} (ha : a.Bounded) :
    (Quantity.toTerm ⟨a, p⟩).Short := by
  refine Quantity.short_toTerm_iff.2 ⟨obstacle_of_bounded ha, ?_⟩
  cases p with
  | none => rfl
  | some f =>
    refine Fraction.obstacle_eq_none_iff.2 fun s hs => intObstacle_of_inRange ?_
    have hpositive := h.fraction.positive s hs
    have hle := h.exponents_le f rfl s hs
    have hmax : maxExponent = 64 := rfl
    have hleast : Whole.least = -2 ^ 127 := rfl
    have hgreatest : Whole.greatest = 2 ^ 127 - 1 := rfl
    exact ⟨by omega, by omega⟩

theorem canonicalize_brackets (names : Names) {p : Option Fraction} (h : IsTyped k p) (a : Number) :
    canonicalize a (brackets names p).tree = .ok ⟨a, p⟩ := by
  cases p with
  | none => rfl
  | some f => exact canonicalize_quotient h.toIsNormal (h.exponents_le f rfl) a

/-! Literals behind signs -/

/-- A literal with what is behind it, behind a minus or not. -/
def operand (negative : Bool) (t : Token) (a : Number) (ht : literal? t = some a)
    (x : Suffixes names) (b : Derivation names .brackets) : Derivation names .unary :=
  if negative then .signed .minus rfl (.unsigned (.plain (.number t a ht x b)))
  else .unsigned (.plain (.number t a ht x b))

theorem lexes_minus (negative : Bool) {t : Token} {a : Number} (ht : literal? t = some a)
    (x : Suffixes names) {b : Derivation names .brackets} {text rest : List Char}
    (h : Lexes k text (t :: (x.tokens ++ b.yield)) rest) :
    Lexes k (minus negative ++ text) (operand negative t a ht x b).yield rest := by
  cases negative with
  | false => exact h
  | true =>
    have hminus : Lexes k ['-'] [.op .minus] (text ++ rest) := .operator (by decide) rfl nofun
    exact hminus.append h

theorem levels_operand_le (negative : Bool) {t : Token} {a : Number} (ht : literal? t = some a)
    (x : Suffixes names) (b : Derivation names .brackets) :
    (operand negative t a ht x b).levels ≤ b.levels + 1 := by
  cases negative with
  | false => exact Nat.le_succ _
  | true => exact Nat.le_refl _

theorem height_operand_le (negative : Bool) {t : Token} {a : Number} (ht : literal? t = some a)
    (x : Suffixes names) (b : Derivation names .brackets) :
    (operand negative t a ht x b).tree.height ≤ b.tree.height + 2 := by
  have hnumber : (Term.number (x.value a) b.tree).height = 1 + b.tree.height := rfl
  cases negative with
  | false =>
    show (Term.number (x.value a) b.tree).height ≤ _
    omega
  | true =>
    show 1 + (Term.number (x.value a) b.tree).height ≤ _
    omega

/-! Parts of complex numbers -/

def imaginarySign (y : Float) : Operator := if Layout.isNegative y then .minus else .plus

theorem isAdditive_imaginarySign (y : Float) : isAdditive (imaginarySign y) = true := by
  unfold imaginarySign
  split <;> rfl

theorem mem_all_of_isAdditive {o : Operator} (ho : isAdditive o = true) : o ∈ Operator.all := by
  cases o with
  | plus | minus => decide
  | _ => cases ho

def imaginaryPart (y : Float) : Number := .complex ⟨0, (shown y.abs).toComplex.re⟩

theorem toList_complex {z : ComplexFloat} (hy : z.im.isFinite = true) :
    ∃ c, (imaginarySign z.im).text.toList = [c] ∧ isOperatorChar c = true ∧ c ≠ '/' ∧
      complex z =
        minus (negative z.re) ++ (unsigned z.re ++ (c :: (unsigned z.im.abs ++ ['i']))) := by
  have him : float z.im.abs = unsigned z.im.abs := by
    rw [minus_float, negative_abs hy]
    rfl
  unfold complex imaginarySign
  rw [minus_float z.re, him]
  split
  · exact ⟨'-', rfl, rfl, by decide, by simp⟩
  · exact ⟨'+', rfl, rfl, by decide, by simp⟩

theorem isIdentifier_i : IsIdentifier k "i" := by
  refine Group.mem_identifier.2 ⟨'i', [], rfl, ?_, nofun⟩
  rw [k.letter_ascii 'i' (by decide)]
  rfl

def sum {o : Operator} (ho : isAdditive o = true) (l r : Derivation names .unary) :
    Derivation names .assign :=
  .value (.sum (.product l .noFactor) (.addition o ho (.product r .noFactor) .noAddition))

/-- A unit behind a complex number stands behind its imaginary part. -/
theorem lexes_complex (names : Names) {z : ComplexFloat} (hx : z.re.isFinite = true)
    (hy : z.im.isFinite = true) {t t' : Token} {b b' : Number} (ht : literal? t = some b)
    (ht' : literal? t' = some b') (hlit : IsLiteral k (unsigned z.re) (.ok t))
    (hlit' : IsLiteral k (unsigned z.im.abs) (.ok t')) {p : Option Fraction} (h : IsTyped k p) :
    Lexes k (complex z ++ suffix p) (sum (isAdditive_imaginarySign z.im)
      (operand (negative z.re) t b ht .none (brackets names none))
      (operand false t' b' ht' (.imaginary "i" rfl) (brackets names p))).yield [] := by
  obtain ⟨c, ho, hop, hslash, htext⟩ := toList_complex hy
  -- from the end of the text, since a lexeme is the longest in front of what follows
  have hi : Lexes k ['i'] [.ident "i"] (suffix p ++ []) :=
    .identifier isIdentifier_i (isBar_suffix p).word
  have him : Lexes k (unsigned z.im.abs) [t'] (['i'] ++ suffix p ++ []) := by
    refine hlit'.lexes fun d hd => ?_
    obtain rfl : 'i' = d := by simpa using hd
    exact ⟨rfl, nofun⟩
  have hright := lexes_minus false ht' (.imaginary "i" rfl)
    (him.append (hi.append (lexes_suffix names h)))
  have hsign : Lexes k [c] [.op (imaginarySign z.im)]
      (unsigned z.im.abs ++ (['i'] ++ suffix p) ++ []) :=
    .operator (mem_all_of_isAdditive (isAdditive_imaginarySign z.im)) ho
      fun hc => absurd hc hslash
  have hre : Lexes k (unsigned z.re) [t]
      ([c] ++ (unsigned z.im.abs ++ (['i'] ++ suffix p)) ++ []) := by
    refine hlit.lexes fun d hd => ?_
    obtain rfl : c = d := by simpa using hd
    exact ⟨not_isNumeral_of_operator hop, fun _ _ _ hw => not_exponentMark_unsigned hx hw⟩
  have hleft := lexes_minus (negative z.re) ht .none (b := brackets names none) hre
  rw [htext]
  simpa [sum, minus] using hleft.append (hsign.append hright)

theorem add_complex (a : Number) (w : ComplexFloat) :
    a.add (.complex w) = .ok (.complex (a.toComplex.add w)) := by
  cases a <;> rfl

theorem sub_complex (a : Number) (w : ComplexFloat) :
    a.sub (.complex w) = .ok (.complex (a.toComplex.sub w)) := by
  cases a <;> rfl

theorem im_shown (x : Float) : (shown x).toComplex.im = 0 := by
  unfold shown
  split <;> rfl

/-- The real part and the imaginary part put together again, with zeros for what each of them
lacks. -/
def joined (z : ComplexFloat) : ComplexFloat :=
  (if Layout.isNegative z.im then ComplexFloat.sub else ComplexFloat.add)
    (shown z.re).toComplex ⟨0, (shown z.im.abs).toComplex.re⟩

theorem equal_joined {z : ComplexFloat} (hx : z.re.isFinite = true) (hy : z.im.isFinite = true) :
    z.equal (joined z) = true := by
  have hre := re_shown hx
  have hfre := Floats.isFinite_of_beq hre hx
  have him := re_shown (Floats.isFinite_abs hy)
  have hfim := Floats.isFinite_of_beq him (Floats.isFinite_abs hy)
  unfold joined
  rw [isNegative_eq hy]
  split
  · next hneg =>
    have hminus := Floats.neg_beq him
    rw [Floats.neg_abs_of_negative hy hneg] at hminus
    have hdifference := Floats.zero_sub_beq hfim
    simp only [ComplexFloat.equal, ComplexFloat.sub, im_shown, Bool.and_eq_true]
    exact ⟨Floats.beq_symm (Floats.beq_trans (Floats.sub_zero_beq hfre) hre),
      Floats.beq_symm (Floats.beq_trans hdifference hminus)⟩
  · next hneg =>
    rw [Floats.abs_of_positive hy (Bool.eq_false_iff.2 hneg)] at him hfim ⊢
    simp only [ComplexFloat.equal, ComplexFloat.add, im_shown, Bool.and_eq_true]
    exact ⟨Floats.beq_symm (Floats.beq_trans (Floats.add_zero_beq hfre) hre),
      Floats.beq_symm (Floats.beq_trans (Floats.zero_add_beq hfim) him)⟩

theorem bounded_shown (x : Float) : (shown x).Bounded := by
  unfold shown
  split
  · next hs =>
    obtain ⟨hw, hlt⟩ := of_isShort hs
    have hb := (Floats.ofInt_truncate hw hlt).1
    have hgreatest : Whole.greatest = 2 ^ 127 - 1 := rfl
    have hleast : Whole.least = -2 ^ 127 := rfl
    exact Number.bounded_int.2 ⟨by omega, by omega⟩
  · exact Number.bounded_real x

variable [Host]

/-! Operands on a line -/

theorem ends_operand (negative : Bool) {t : Token} {a : Number} (ht : literal? t = some a)
    (x : Suffixes names) {p : Option Fraction} (h : IsTyped k p) {c : Number}
    (hc : (if negative then (x.value a).neg else .ok (x.value a)) = .ok c)
    (hs : (operand negative t a ht x (brackets names p)).tree.Short) (n : Nat) :
    (evaluateWithin (n + 2) (operand negative t a ht x (brackets names p)).tree).Ends env
      (.ok (some ⟨c, p⟩)) env := by
  have hle := height_brackets_le names h.toIsSmall
  have hevaluation := Host.evaluation_ge
  have hwriting := Host.writing_ge
  have hq := canonicalize_brackets names h (x.value a)
  have hheight : (Term.number (x.value a) (brackets names p).tree).height =
      1 + (brackets names p).tree.height := rfl
  have hnumber (hs : (Term.number (x.value a) (brackets names p).tree).Short) (n : Nat) :
      (evaluateWithin (n + 1) (.number (x.value a) (brackets names p).tree)).Ends env
        (.ok (some ⟨x.value a, p⟩)) env :=
    ends_number hq (by omega) (fun _ => Term.obstacle_eq_none_iff.2 ⟨by omega, hs⟩) n
  cases negative with
  | false =>
    cases hc
    exact hnumber hs (n + 1)
  | true =>
    have hsigned : (Term.signed .minus (.number (x.value a) (brackets names p).tree)).height =
        1 + (1 + (brackets names p).tree.height) := rfl
    have hnote : (note (.evaluation (.signed .minus (.number (x.value a)
        (brackets names p).tree)))).Ends env (.ok ()) env :=
      note_evaluation fun _ => Term.obstacle_eq_none_iff.2 ⟨by omega, hs⟩
    rw [if_pos rfl] at hc
    have hneg : (orFault (x.value a).neg).Ends env (.ok c) env := by
      rw [hc]
      exact .pure c env
    have hsign : (sign .minus (some ⟨x.value a, p⟩)).Ends env (.ok ⟨c, p⟩) env :=
      Ends.bind (.pure _ env) (hneg.bind (.pure _ env))
    show (evaluateWithin (n + 2) (.signed .minus (.number _ _))).Ends _ _ _
    rw [evaluateWithin_signed]
    cases hs with
    | signed hs => exact hnote.bind ((hnumber hs n).bind (hsign.bind (.pure _ env)))

/-- A line that is cut into the tokens of a derivation comes to what its term comes to. -/
theorem runLine_of_derivation (hd : env.maxDepth = Environment.defaultDepth) {text : List Char}
    (d : Derivation env.grammarNames .assign) (hl : Lexes k text d.yield [])
    (hlevels : d.levels ≤ 100) {r : Except Stop Value}
    (he : d.tree.Short → (evaluate d.tree).Ends env r env) :
    (runLine k env text).1 = r := by
  have hdepth : Environment.defaultDepth = 100 := rfl
  have hp : parse env.grammarNames env.maxDepth d.yield = .ok d.tree :=
    parse_of_levels_le d (by omega)
  have hshort : d.tree.Short := IsParsed.short ⟨_, _, text, _, hl.tokenize_eq, hp⟩
  exact ((ends_runLine hl.tokenize_eq hp).unique (he hshort)).1

/-! Numbers on a line of their own -/

theorem runLine_numeral (hd : env.maxDepth = Environment.defaultDepth) {negative : Bool}
    {text : List Char} {c : Number} (hn : IsNumeral k negative text c) {p : Option Fraction}
    (h : IsTyped k p) :
    (runLine k env (minus negative ++ text ++ suffix p)).1 = .ok (some ⟨c, p⟩) := by
  obtain ⟨t, b, hlit, ht, hc⟩ := hn
  have hliteral : Lexes k text [t] (suffix p ++ []) := hlit.lexes ((isBar_suffix p).closes text)
  have hlexes := lexes_minus negative ht .none
    (hliteral.append (lexes_suffix env.grammarNames h))
  have hlevels := levels_operand_le negative ht .none (brackets env.grammarNames p)
  have hbrackets := levels_brackets_le env.grammarNames h.toIsSmall
  obtain ⟨n, hevaluation⟩ := Host.exists_evaluation_eq (m := 2) (by decide)
  rw [List.append_assoc]
  refine runLine_of_derivation hd
    (.value (.sum (.product (operand negative t b ht .none (brackets _ p)) .noFactor) .noAddition))
    ?_ ?_ fun hshort => ?_
  · simpa using hlexes
  · simp only [Derivation.levels]
    omega
  · rw [evaluate, hevaluation]
    exact ends_operand negative ht .none h hc hshort n

/-! Complex numbers -/

theorem ends_sum {o : Operator} (ho : isAdditive o = true) {l r : Term} {n : Nat}
    (hw : (Term.binary o l r).obstacle Host.writing = none) {a b : Value}
    (hl : (evaluateWithin n l).Ends env (.ok a) env)
    (hr : (evaluateWithin n r).Ends env (.ok b) env) {e : Except Stop Quantity}
    (he : (binary o a b).Ends env e env) :
    (evaluateWithin (n + 1) (.binary o l r)).Ends env (e.map some) env := by
  have hne : o ≠ .equals := by
    rintro rfl
    cases ho
  rw [evaluateWithin_binary _ hne]
  refine (note_evaluation fun _ => hw).bind (hl.bind (hr.bind ?_))
  cases e with
  | ok q => exact he.bind (.pure _ env)
  | error s => exact he.bind_error

theorem runLine_complex (hd : env.maxDepth = Environment.defaultDepth) {z : ComplexFloat}
    (hx : z.re.isFinite = true) (hy : z.im.isFinite = true) (hrx : ReadsBack z.re)
    (hry : ReadsBack z.im) {p : Option Fraction} (h : IsTyped k p) {e : Except Stop Quantity}
    (he : (binary (imaginarySign z.im) (some ⟨shown z.re, none⟩)
      (some ⟨imaginaryPart z.im, p⟩)).Ends env e env) :
    (runLine k env (complex z ++ suffix p)).1 = e.map some := by
  have hay := Floats.isFinite_abs hy
  obtain ⟨t, b, hlit, ht, hc⟩ := isNumeral_float (k := k) hx hrx
  obtain ⟨t', b', hlit', ht', hc'⟩ := isNumeral_float (k := k) hay (readsBack_abs hy hry)
  rw [negative_abs hy] at hc'
  obtain rfl : b' = shown z.im.abs := Except.ok.inj hc'
  let left := operand (negative z.re) t b ht .none (brackets env.grammarNames none)
  let right := operand false t' _ ht' (.imaginary "i" rfl) (brackets env.grammarNames p)
  obtain ⟨n, hevaluation⟩ := Host.exists_evaluation_eq (m := 3) (by decide)
  have hbrackets := levels_brackets_le env.grammarNames h.toIsSmall
  refine runLine_of_derivation hd (sum (isAdditive_imaginarySign z.im) left right)
    (lexes_complex _ hx hy ht ht' hlit hlit' h) ?_ fun hshort => ?_
  · have hl := levels_operand_le (negative z.re) ht .none (brackets env.grammarNames none)
    have hr := levels_operand_le false ht' (.imaginary "i" rfl) (brackets env.grammarNames p)
    have hnone : (brackets env.grammarNames none).levels = 0 := rfl
    simp only [sum, Derivation.levels, left, right]
    omega
  · have hl : left.tree.height ≤ 1 + 2 := height_operand_le (negative z.re) ht .none _
    have hr : right.tree.height ≤ (brackets env.grammarNames p).tree.height + 2 :=
      height_operand_le false ht' (.imaginary "i" rfl) _
    have hb := height_brackets_le env.grammarNames h.toIsSmall
    have hheight : (sum (isAdditive_imaginarySign z.im) left right).tree.height =
        1 + max left.tree.height right.tree.height := rfl
    have hwriting := Host.writing_ge
    have hw := Term.obstacle_eq_none_iff (n := Host.writing).2 ⟨by omega, hshort⟩
    cases hshort with
    | binary hsl hsr =>
      rw [evaluate, hevaluation]
      exact ends_sum (isAdditive_imaginarySign z.im) hw
        (ends_operand (negative z.re) ht .none (isTyped_none (k := k)) hc hsl n)
        (ends_operand false ht' (.imaginary "i" rfl) h rfl hsr n) he

theorem uniform_imaginarySign (y : Float) (p q : Quantity) : combine (imaginarySign y) p q =
    uniform (imaginarySign y) (if Layout.isNegative y then Number.sub else Number.add) p q := by
  unfold imaginarySign
  split <;> rfl

theorem ends_binary {o : Operator} {p q : Quantity} (hp : p.toTerm.Short) (hq : q.toTerm.Short)
    {r : Except Stop Quantity} (h : (combine o p q).Ends env r env) :
    (binary o (some p) (some q)).Ends env r env := by
  unfold binary
  refine Ends.bind (.pure p env) (Ends.bind (.pure q env) ?_)
  split
  · exact (note_operation o hp hq env).bind h
  · exact h

theorem ends_parts (z : ComplexFloat) :
    (binary (imaginarySign z.im) (some ⟨shown z.re, none⟩)
      (some ⟨imaginaryPart z.im, none⟩)).Ends env (.ok ⟨.complex (joined z), none⟩) env := by
  have hjoined : (if Layout.isNegative z.im then Number.sub else Number.add)
      (shown z.re) (imaginaryPart z.im) = .ok (.complex (joined z)) := by
    unfold joined
    split
    · exact sub_complex _ _
    · exact add_complex _ _
  have hleft := (isTyped_none (k := .standard)).short (bounded_shown z.re)
  have hright := (isTyped_none (k := .standard)).short (a := imaginaryPart z.im)
    (Number.bounded_complex _)
  refine ends_binary hleft hright ?_
  rw [uniform_imaginarySign]
  unfold uniform sameUnit
  rw [if_pos rfl, hjoined]
  exact Ends.bind (.pure _ env) (Ends.bind (.pure _ env) (.pure _ env))

/-- A complex number with a unit is no sum of its parts, of which one has none. -/
theorem ends_mismatch (z : ComplexFloat) {f : Fraction} (h : IsTyped k (some f)) :
    (binary (imaginarySign z.im) (some ⟨shown z.re, none⟩)
      (some ⟨imaginaryPart z.im, some f⟩)).Ends env
      (.error (.failure (.eval (.incompatibleUnits (imaginarySign z.im) none (some f))))) env := by
  have hleft := (isTyped_none (k := k)).short (bounded_shown z.re)
  have hright := h.short (a := imaginaryPart z.im) (Number.bounded_complex _)
  have hmessage : (EvalError.incompatibleUnits (imaginarySign z.im) none (some f)).obstacle = none :=
    (Quantity.short_toTerm_iff.1 hright).2
  refine ends_binary hleft hright ?_
  rw [uniform_imaginarySign]
  unfold uniform sameUnit
  rw [if_neg (Option.some_ne_none f).symm, ← EvalError.failure_of_none hmessage]
  exact Ends.bind_error (.fail _ env)

/-! The least integer -/

theorem runLine_refused {line : List Char} {e : LexError} (h : tokenize k line = .error e) :
    (runLine k env line).1 = .error (.failure (.lex e)) := by
  have hc := comes_runLine k env line
  generalize (runLine k env line).1 = r, env.after k line = env' at hc
  cases hc with
  | refused he =>
    rw [h] at he
    cases he
    rfl
  | blank he | unread he _ | evaluated he _ _ =>
    rw [h] at he
    cases he

theorem runLine_least (radix : Radix) (size : Nat) (p : Option Fraction) :
    (runLine k env (int radix size Whole.least ++ suffix p)).1 =
      .error (.failure (.lex ⟨.tooLarge, natural radix size (2 ^ 127)⟩)) := by
  have htext : int radix size Whole.least = ['-'] ++ natural radix size (2 ^ 127) := by
    rw [int_eq, if_pos (by decide)]
    rfl
  have hlarge : Literal.ofNat (2 ^ 127) (natural radix size (2 ^ 127)) =
      .error ⟨.tooLarge, natural radix size (2 ^ 127)⟩ := rfl
  have hlit := isLiteral_natural (k := k) radix size (n := 2 ^ 127) (by decide)
  rw [hlarge] at hlit
  have hrefused := hlit.refused ((isBar_suffix p).closes _)
  rw [List.append_nil] at hrefused
  refine runLine_refused ?_
  rw [htext, List.append_assoc]
  have hminus : (⟨.operator, ['-']⟩ : Lexeme).IsLongest k
      (natural radix size (2 ^ 127) ++ suffix p) := Lexeme.isLongest_operator rfl nofun
  have hsplit := hminus.lexemes_append
  rw [tokenize] at hrefused
  rw [tokenize, hsplit, tokensOf, hrefused]
  rfl

end Display

/-! Results on a line of their own -/

def Number.parts : Number → List Float
  | .int _ => []
  | .real x => [x]
  | .complex z => [z.re, z.im]

section Host

variable [Host]

/-- What is shown for the quantity comes to an equal one. -/
def Quantity.ReadsBack (k : CharClasses) (env : Environment) (q : Quantity) : Prop :=
  ∃ text p, env.display (some q) = .ok text ∧ (runLine k env text.toList).1 = .ok (some p) ∧
    q.value.equals p.value = true ∧ p.unit = q.unit

namespace Quantity

open Display

variable {q : Quantity}

theorem ReadsBack.of_runLine (h : IsTyped k q.unit) (hb : q.value.Bounded) {p : Quantity}
    (hp : (runLine k env (number env.radix env.group q.value ++ suffix q.unit)).1 = .ok (some p))
    (he : q.value.equals p.value = true) (hu : p.unit = q.unit) : q.ReadsBack k env := by
  refine ⟨_, p, env.display_of_short (h.short hb), ?_, he, hu⟩
  rw [← toList_term env.radix env.group h.toIsNormal] at hp
  exact hp

theorem ReadsBack.not_of_runLine (h : IsTyped k q.unit) (hb : q.value.Bounded) {e : Stop}
    (he : (runLine k env (number env.radix env.group q.value ++ suffix q.unit)).1 = .error e) :
    ¬q.ReadsBack k env := by
  rintro ⟨text, p, ht, hp, -⟩
  cases ht.symm.trans (env.display_of_short (h.short hb))
  rw [← toList_term env.radix env.group h.toIsNormal] at he
  cases he.symm.trans hp

theorem readsBack_int_iff (hd : env.maxDepth = Environment.defaultDepth) {n : Int}
    (hn : Whole.InRange n) {p : Option Fraction} (hp : IsTyped k p) :
    ReadsBack k env ⟨.int n, p⟩ ↔ n ≠ Whole.least := by
  by_cases hl : n = Whole.least
  · subst hl
    have hb : (Number.int Whole.least).Bounded := Number.bounded_int.2 hn
    refine iff_of_false (ReadsBack.not_of_runLine hp hb (runLine_least _ _ p)) ?_
    exact fun h => h rfl
  · have hrun := runLine_numeral hd (isNumeral_int env.radix env.group hn hl) hp
    rw [← minus_int] at hrun
    exact iff_of_true
      (.of_runLine hp (Number.bounded_int.2 hn) hrun (decide_eq_true rfl) rfl) hl

theorem readsBack_real (hd : env.maxDepth = Environment.defaultDepth) {x : Float}
    (hx : x.isFinite = true) (hr : UnitCalculator.ReadsBack x) {p : Option Fraction}
    (hp : IsTyped k p) : ReadsBack k env ⟨.real x, p⟩ := by
  have hrun := runLine_numeral hd (isNumeral_float hx hr) hp
  rw [← minus_float] at hrun
  exact .of_runLine hp (Number.bounded_real x) hrun (equals_shown hx) rfl

theorem readsBack_complex_iff (hd : env.maxDepth = Environment.defaultDepth) {z : ComplexFloat}
    (hx : z.re.isFinite = true) (hy : z.im.isFinite = true) (hrx : UnitCalculator.ReadsBack z.re)
    (hry : UnitCalculator.ReadsBack z.im) {p : Option Fraction} (hp : IsTyped k p) :
    ReadsBack k env ⟨.complex z, p⟩ ↔ p = none := by
  cases p with
  | none =>
    have hrun := runLine_complex hd hx hy hrx hry hp (ends_parts z)
    exact iff_of_true
      (.of_runLine hp (Number.bounded_complex z) hrun (equal_joined hx hy) rfl) rfl
  | some f =>
    have hrun := runLine_complex hd hx hy hrx hry hp (ends_mismatch z hp)
    exact iff_of_false (ReadsBack.not_of_runLine hp (Number.bounded_complex z) hrun)
      (Option.some_ne_none f)

end Quantity

theorem isTyped_of_runLine {env₀ : Environment} (h₀ : Reachable k env₀) {line : List Char}
    {q : Quantity} (hq : (runLine k env₀ line).1 = .ok (some q)) (hs : Display.IsSmall q.unit) :
    q.value.Bounded ∧ Display.IsTyped k q.unit := by
  have hn : q.Normal := by
    have ho := h₀.outcome line
    rw [hq] at ho
    exact ho q rfl
  exact ⟨hn.bounded, hn.unit, hs, fun _ hu => isIdentifier_of_runLine h₀ hq hu⟩

/-- What a line has come to, in whatever session, can be typed as it is shown wherever the depth is
the usual one, and comes to the same again. What cannot is the least integer, whose digits are no
literal, and a complex number with a unit, which would be that of its imaginary part. -/
theorem results_read_back_iff (hd : env.maxDepth = Environment.defaultDepth) {env₀ : Environment}
    (h₀ : Reachable k env₀) {line : List Char} {q : Quantity}
    (hq : (runLine k env₀ line).1 = .ok (some q)) (hf : ∀ x ∈ q.value.parts, x.isFinite = true)
    (hr : ∀ x ∈ q.value.parts, ReadsBack x) (hs : Display.IsSmall q.unit) :
    q.ReadsBack k env ↔
      q.value ≠ .int Whole.least ∧ ∀ z, q.value = .complex z → q.unit = none := by
  obtain ⟨hb, hp⟩ := isTyped_of_runLine h₀ hq hs
  obtain ⟨a, p⟩ := q
  cases a with
  | int n =>
    refine (Quantity.readsBack_int_iff hd (Number.bounded_int.1 hb) hp).trans ⟨fun hl => ?_, ?_⟩
    · exact ⟨fun he => hl (Number.int.inj he), nofun⟩
    · exact fun h he => h.1 (congrArg Number.int he)
  | real x =>
    have hx := hf x (List.mem_singleton_self x)
    have hback := Quantity.readsBack_real hd hx (hr x (List.mem_singleton_self x)) hp
    exact iff_of_true hback ⟨nofun, nofun⟩
  | complex z =>
    obtain ⟨hx, hfy⟩ := List.forall_mem_cons.1 hf
    obtain ⟨hrx, hry⟩ := List.forall_mem_cons.1 hr
    have hy := List.forall_mem_singleton.1 hfy
    have hback := Quantity.readsBack_complex_iff hd hx hy hrx (List.forall_mem_singleton.1 hry) hp
    exact hback.trans ⟨fun h => ⟨nofun, fun _ _ => h⟩, fun h => h.2 z rfl⟩

end Host

/-! Metres -/

def metre : Fraction := ⟨[("m", 1)], []⟩

theorem canonicalize_metre (a : Number) :
    canonicalize a (.bracketed (.name "m")) = .ok ⟨a, some metre⟩ :=
  canonicalize_symbol (by decide) rfl a

theorem runLine_metres [Host] {line : List Char} {ts : List Token} {a : Number}
    (hts : tokenize .standard line = .ok ts)
    (hp : parse Environment.fresh.grammarNames Environment.fresh.maxDepth ts =
      .ok (.number a (.bracketed (.name "m")))) :
    (runLine .standard .fresh line).1 = .ok (some ⟨a, some metre⟩) := by
  obtain ⟨n, hn⟩ := Host.exists_evaluation_eq (m := 1) (by decide)
  have hheight : (Term.bracketed (.name "m")).height ≤ Host.evaluation :=
    (by decide : 2 ≤ 100).trans Host.evaluation_ge
  have hends := ends_runLine hts hp
  rw [evaluate, hn] at hends
  have huntraced : ¬Environment.fresh.debug = true := Bool.false_ne_true
  exact (hends.unique (ends_number (canonicalize_metre a) hheight (absurd · huntraced) n)).1

theorem isSmall_metre : Display.IsSmall (some metre) where
  symbols_le := by
    rintro _ ⟨⟩
    decide
  exponents_le := by
    rintro _ ⟨⟩
    decide

theorem runLine_realMetres : (runLine .standard .fresh "2.5[m]".toList).1 =
    .ok (some ⟨.real 2.5, some metre⟩) := by
  refine runLine_metres ?_ (rfl : parse _ _
    [.float 2.5, .op .openBracket, .ident "m", .op .closeBracket] = _)
  refine tokenize_cons rfl rfl (tokenize_cons rfl rfl (tokenize_cons rfl rfl ?_))
  exact tokenize_cons rfl rfl (tokenize_nil _)

theorem realMetres_read_back : Reachable .standard .fresh ∧
    (runLine .standard .fresh "2.5[m]".toList).1 = .ok (some ⟨.real 2.5, some metre⟩) ∧
      Quantity.ReadsBack .standard .fresh ⟨.real 2.5, some metre⟩ := by
  have hs : Reachable .standard .fresh := .start false Environment.defaultDepth
  have hfinite : ∀ x ∈ (Number.real 2.5).parts, x.isFinite = true := by
    intro x hx
    obtain rfl := List.mem_singleton.1 hx
    decide +kernel
  have hback : ∀ x ∈ (Number.real 2.5).parts, ReadsBack x := by
    intro x hx
    obtain rfl := List.mem_singleton.1 hx
    exact ⟨⟨25, -1⟩, by decide +kernel, by decide +kernel⟩
  refine ⟨hs, runLine_realMetres, ?_⟩
  refine (results_read_back_iff rfl hs runLine_realMetres hfinite hback isSmall_metre).2 ?_
  exact ⟨nofun, nofun⟩

/-- Two metres on the imaginary axis are shown as `0+2i[m]`, a sum of no unit and metres. -/
theorem complexMetres_not_read_back : Reachable .standard .fresh ∧
    ∃ q, (runLine .standard .fresh "2i[m]".toList).1 = .ok (some q) ∧
      (∀ x ∈ q.value.parts, x.isFinite = true ∧ ReadsBack x) ∧ Display.IsSmall q.unit ∧
        ¬q.ReadsBack .standard .fresh := by
  have hs : Reachable .standard .fresh := .start false Environment.defaultDepth
  have hrun : (runLine .standard .fresh "2i[m]".toList).1 =
      .ok (some ⟨.complex ⟨0, Float.ofInt 2⟩, some metre⟩) := by
    refine runLine_metres ?_ (rfl : parse _ _
      [.int 2, .ident "i", .op .openBracket, .ident "m", .op .closeBracket] = _)
    refine tokenize_cons rfl rfl (tokenize_cons rfl rfl (tokenize_cons rfl rfl ?_))
    exact tokenize_cons rfl rfl (tokenize_cons rfl rfl (tokenize_nil _))
  have hparts : ∀ x ∈ (Number.complex ⟨0, Float.ofInt 2⟩).parts,
      x.isFinite = true ∧ ReadsBack x := by
    intro x hx
    obtain rfl | hx := List.mem_cons.1 hx
    · exact ⟨by decide +kernel, ⟨0, -1⟩, by decide +kernel, by decide +kernel⟩
    · obtain rfl := List.mem_singleton.1 hx
      exact ⟨by decide +kernel, ⟨20, -1⟩, by decide +kernel, by decide +kernel⟩
  obtain ⟨-, ht⟩ := isTyped_of_runLine hs hrun isSmall_metre
  obtain ⟨⟨hx, hrx⟩, hy⟩ := List.forall_mem_cons.1 hparts
  obtain ⟨hy, hry⟩ := List.forall_mem_singleton.1 hy
  refine ⟨hs, _, hrun, hparts, isSmall_metre, fun hback => ?_⟩
  cases (Quantity.readsBack_complex_iff rfl hx hy hrx hry ht).1 hback

end UnitCalculator
