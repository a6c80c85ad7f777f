import UnitCalculator.Proofs.Display.ReadBack
import UnitCalculator.Proofs.Units.Cancelling

/-!
Units that are typed again. The text of a unit tree puts an operand in parentheses where operators that
group to the left would take it apart, and nowhere else; so it is read as the same tree. The text of a
canonical unit is read as a chain of powers, which has that unit for its canonical form.
-/

set_option autoImplicit false

namespace UnitCalculator

open Text Grammar UnitCalculator.Units

variable {k : CharClasses} {names : Names}

/-- The units that can be typed: symbols are identifiers, and exponents have literals. -/
inductive IsUnitTree (k : CharClasses) : Term → Prop where
  | symbol {s : String} : IsIdentifier k s → IsUnitTree k (.name s)
  | one : IsUnitTree k (.int 1)
  | binary {o : Operator} {u v : Term} :
      isUnitOperator o = true → IsUnitTree k u → IsUnitTree k v → IsUnitTree k (.binary o u v)
  | power {u : Term} {n : Int} :
      0 ≤ n → n ≤ Whole.greatest → IsUnitTree k u → IsUnitTree k (.binary .caret u (.int n))

namespace Grammar.Derivation

/-- One more operator behind a chain; phrases of other kinds stay as they are. -/
def snoc (o : Operator) (ho : isUnitOperator o = true) (t : Derivation names .unitTerm) :
    {s : Symbol} → Derivation names s → Derivation names s
  | _, .noUnitFactor => .unitFactor o ho t .noUnitFactor
  | _, .unitFactor o' ho' t' f => .unitFactor o' ho' t' (snoc o ho t f)
  | _, d => d

variable {o : Operator} (ho : isUnitOperator o = true) (t : Derivation names .unitTerm)

@[simp] theorem yield_snoc : (f : Derivation names .unitFactors) →
    (snoc o ho t f).yield = f.yield ++ .op o :: t.yield
  | .noUnitFactor => by simp [snoc]
  | .unitFactor _ _ _ f => by simp [snoc, yield_snoc f]

@[simp] theorem tree_snoc : (f : Derivation names .unitFactors) → (l : Term) →
    (snoc o ho t f).tree l = .binary o (f.tree l) t.tree
  | .noUnitFactor, _ => rfl
  | .unitFactor _ _ _ f, _ => tree_snoc f _

end Grammar.Derivation

namespace Display

/-! Texts of phrases -/

/-- In front of an operator that no sign is, or at the end, the text is cut into the tokens; and it does
not make a double operator of a slash in front of it. -/
structure Reads (k : CharClasses) (text : List Char) (ts : List Token) : Prop where
  lexes : ∀ rest, IsBar rest → Lexes k text ts rest
  begins : ∃ c t, text = c :: t ∧ c ≠ '/'

namespace Reads

variable {x y : List Char} {ts us : List Token}

theorem symbol {s : String} (h : IsIdentifier k s) : Reads k s.toList [.ident s] := by
  refine ⟨fun rest hr => .identifier h hr.word, ?_⟩
  obtain ⟨c, t, hs, hc⟩ := h.exists_cons
  refine ⟨c, t, hs, ?_⟩
  rintro rfl
  rw [Group.letter_of_isOperatorChar rfl] at hc
  cases hc

theorem one : Reads k ['1'] [.int 1] :=
  ⟨fun _ hr => isLiteral_one.lexes (hr.closes _), _, _, rfl, by decide⟩

theorem binary {o : Operator} (ho : isUnitOperator o = true) (hx : Reads k x ts)
    (hy : Reads k y us) : Reads k (x ++ (o.text.toList ++ y)) (ts ++ .op o :: us) := by
  obtain ⟨d, y, rfl, hd⟩ := hy.begins
  obtain ⟨c, hc⟩ : ∃ c, o.text.toList = [c] := by
    cases o with
    | times | slash => exact ⟨_, rfl⟩
    | _ => cases ho
  obtain ⟨hmem, hchar, hsign⟩ := unitOperator_char ho hc
  rw [hc]
  refine ⟨fun rest hr => ?_, ?_⟩
  · have hoperator : Lexes k [c] [.op o] (d :: y ++ rest) :=
      .operator hmem hc fun _ h => hd (by simpa using h)
    exact (hx.lexes _ (isBar_cons hchar hsign _)).append (hoperator.append (hy.lexes rest hr))
  · obtain ⟨e, x, rfl, he⟩ := hx.begins
    exact ⟨e, _, rfl, he⟩

theorem parenthesized (hx : Reads k x ts) :
    Reads k ('(' :: (x ++ [')'])) (.op .openParen :: (ts ++ [.op .closeParen])) := by
  refine ⟨fun rest hr => ?_, _, _, rfl, by decide⟩
  have hclose : Lexes k [')'] [.op .closeParen] rest := .operator (by decide) rfl nofun
  have hinner := (hx.lexes (')' :: rest) (isBar_cons rfl rfl rest)).append hclose
  have hopen : Lexes k ['('] [.op .openParen] (x ++ [')'] ++ rest) :=
    .operator (by decide) rfl nofun
  exact hopen.append hinner

theorem raised (hx : Reads k x ts) {n : Int} (h₀ : 0 ≤ n) (hn : n ≤ Whole.greatest) :
    Reads k (x ++ '^' :: (toString n).toList) (ts ++ [.op .caret, .int n]) := by
  refine ⟨fun rest hr => ?_, ?_⟩
  · exact (hx.lexes _ (isBar_cons rfl rfl _)).append (lexes_exponent h₀ hn hr)
  · obtain ⟨e, x, rfl, he⟩ := hx.begins
    exact ⟨e, _, rfl, he⟩

end Reads

/-! The derivation of a tree -/

def operandText (u : Term) : List Char :=
  if isBinary u then '(' :: ((unit u).toList ++ [')']) else (unit u).toList

theorem unit_binary {o : Operator} (ho : isUnitOperator o = true) (u v : Term) :
    (unit (.binary o u v)).toList = (unit u).toList ++ (o.text.toList ++ operandText v) := by
  have hne : o ≠ .caret := by
    rintro rfl
    cases ho
  simp only [unit, hne, decide_false, Bool.and_false, Bool.false_eq_true, if_false, ne_eq,
    not_false_eq_true, decide_true, Bool.and_true, String.toList_append, operandText]
  split
  · simp [parenthesized]
  · simp

theorem unit_power (u : Term) (n : Int) : (unit (.binary .caret u (.int n))).toList =
    operandText u ++ '^' :: (toString n).toList := by
  simp only [unit, Term.int, decide_true, Bool.and_true, isBinary, Bool.false_and,
    Bool.false_eq_true, if_false, String.toList_append, operandText]
  split
  · simp [parenthesized, Operator.text]
  · simp [Operator.text]

/-- With parentheses around it where an operator is in it, a unit is an operand. -/
theorem exists_operand {u : Term} (h : IsUnitTree k u) {d : Derivation names .unit}
    (hd : d.tree = u) (hr : Reads k (unit u).toList d.yield) :
    ∃ a : Derivation names .unitAtom, a.tree = u ∧ Reads k (operandText u) a.yield := by
  cases h with
  | @symbol s hs => exact ⟨.symbol s, rfl, .symbol hs⟩
  | one => exact ⟨.one, rfl, .one⟩
  | binary _ _ _ => exact ⟨.unitParenthesized d, hd, hr.parenthesized⟩
  | power _ _ _ => exact ⟨.unitParenthesized d, hd, hr.parenthesized⟩

theorem exists_unit (names : Names) {u : Term} (h : IsUnitTree k u) :
    ∃ d : Derivation names .unit, d.tree = u ∧ Reads k (unit u).toList d.yield := by
  induction h with
  | @symbol s hs => exact ⟨.unit (.unitPlain (.symbol s)) .noUnitFactor, rfl, .symbol hs⟩
  | one => exact ⟨.unit (.unitPlain .one) .noUnitFactor, rfl, .one⟩
  | @binary o u v ho _ hv ihu ihv =>
    obtain ⟨d, hd, hr⟩ := ihu
    obtain ⟨e, he, hs⟩ := ihv
    obtain ⟨a, ha, hoperand⟩ := exists_operand hv he hs
    cases d with
    | unit t f =>
      -- the phrase on the left is a chain already, which goes on with the operand on the right
      refine ⟨.unit t (Derivation.snoc o ho (.unitPlain a) f), ?_, ?_⟩
      · rw [← hd, ← ha]
        exact Grammar.Derivation.tree_snoc ho (.unitPlain a) f t.tree
      · rw [unit_binary ho]
        simpa using hr.binary ho hoperand
  | @power u n h₀ hn hu ihu =>
    obtain ⟨d, hd, hr⟩ := ihu
    obtain ⟨a, ha, hoperand⟩ := exists_operand hu hd hr
    refine ⟨.unit (.unitRaised a n) .noUnitFactor, ?_, ?_⟩
    · rw [← ha]
      rfl
    · rw [unit_power]
      simpa using hoperand.raised h₀ hn

theorem unit_injective {u v : Term} (hu : IsUnitTree k u) (hv : IsUnitTree k v)
    (h : unit u = unit v) : u = v := by
  let names : Names := Environment.fresh.grammarNames
  obtain ⟨d, rfl, hd⟩ := exists_unit names hu
  obtain ⟨e, rfl, he⟩ := exists_unit names hv
  have hd' := (hd.lexes [] nofun).tokenize_eq
  have he' := (he.lexes [] nofun).tokenize_eq
  rw [h, he'] at hd'
  rw [Derivation.yield_injective (Except.ok.inj hd')]

/-- The text of the number one with a unit tree is cut into tokens; and wherever the limit of the depth
is above their number, they are read as that number with the same tree. -/
theorem parse_shown_unit (env : Environment) {u : Term} (h : IsUnitTree k u) :
    ∃ ts, tokenize k ("1[" ++ unit u ++ "]").toList = .ok ts ∧
      ((ts.length : Int) < env.maxDepth →
        parse env.grammarNames env.maxDepth ts = .ok (.number (.int 1) (.bracketed u))) := by
  obtain ⟨d, rfl, hd⟩ := exists_unit env.grammarNames h
  let line : Derivation env.grammarNames .assign := .value (.sum (.product
    (operand false (.int 1) (.int 1) rfl .none (.bracketed d)) .noFactor) .noAddition)
  have hclose : Lexes k [']'] [.op .closeBracket] [] := .operator (by decide) rfl nofun
  have hunit := (hd.lexes [']'] (isBar_cons rfl rfl [])).append hclose
  have hopen : Lexes k ['['] [.op .openBracket] ((unit d.tree).toList ++ [']'] ++ []) :=
    .operator (by decide) rfl nofun
  have hone := (Reads.one (k := k)).lexes _
    (isBar_cons (c := '[') rfl rfl ((unit d.tree).toList ++ [']'] ++ []))
  have htokens : tokenize k ("1[" ++ unit d.tree ++ "]").toList = .ok line.yield := by
    have hline := (hone.append (hopen.append hunit)).tokenize_eq
    simpa [line, operand, Suffixes.tokens] using hline
  exact ⟨line.yield, htokens, fun hlt => parse_yield line hlt⟩

def groupedUnit : Term :=
  .binary .slash (.binary .caret (.binary .slash (.name "m") (.name "s")) (.int 2))
    (.binary .times (.name "g") (.name "s"))

/-- Without either pair of its parentheses the text would be that of another tree. -/
theorem parse_shown_groupedUnit : IsUnitTree .standard groupedUnit ∧
    ∃ ts, tokenize .standard "1[(m/s)^2/(g*s)]".toList = .ok ts ∧
      (ts.length : Int) < Environment.fresh.maxDepth ∧
        parse Environment.fresh.grammarNames Environment.fresh.maxDepth ts =
          .ok (.number (.int 1) (.bracketed groupedUnit)) := by
  have hsymbol {s : String} (h : isAsciiWord s = true) : IsUnitTree .standard (.name s) :=
    .symbol (isIdentifier_of_isAsciiWord h)
  have hspeed : IsUnitTree .standard (.binary .slash (.name "m") (.name "s")) :=
    .binary rfl (hsymbol (by decide)) (hsymbol (by decide))
  have htree : IsUnitTree .standard groupedUnit := .binary rfl
    (.power (by decide) (by decide) hspeed)
    (.binary rfl (hsymbol (by decide)) (hsymbol (by decide)))
  have htext : "1[" ++ unit groupedUnit ++ "]" = "1[(m/s)^2/(g*s)]" := rfl
  have htokens : tokenize .standard "1[(m/s)^2/(g*s)]".toList = .ok [.int 1, .op .openBracket,
      .op .openParen, .ident "m", .op .slash, .ident "s", .op .closeParen, .op .caret, .int 2,
      .op .slash, .op .openParen, .ident "g", .op .times, .ident "s", .op .closeParen,
      .op .closeBracket] := by
    refine tokenize_cons rfl rfl (tokenize_cons rfl rfl (tokenize_cons rfl rfl ?_))
    refine tokenize_cons rfl rfl (tokenize_cons rfl rfl (tokenize_cons rfl rfl ?_))
    refine tokenize_cons rfl rfl (tokenize_cons rfl rfl (tokenize_cons rfl rfl ?_))
    refine tokenize_cons rfl rfl (tokenize_cons rfl rfl (tokenize_cons rfl rfl ?_))
    refine tokenize_cons rfl rfl (tokenize_cons rfl rfl (tokenize_cons rfl rfl ?_))
    exact tokenize_cons rfl rfl (tokenize_nil _)
  obtain ⟨ts, hts, hparse⟩ := parse_shown_unit .fresh htree
  rw [htext] at hts
  have hlength : (ts.length : Int) < Environment.fresh.maxDepth := by
    rw [htokens] at hts
    cases hts
    decide
  exact ⟨htree, ts, hts, hlength, hparse hlength⟩

/-! Canonical units -/

theorem isTyped_of_canonical {f : Fraction} (hc : f.Canonical)
    (hs : ∀ p ∈ f.numerator ++ f.denominator, IsIdentifier k p.1 ∧ p.2 ≤ maxExponent)
    (hl : f.numerator.length + f.denominator.length ≤ 90) : IsTyped k (some f) :=
  { hc.isNormal with
    symbols_le := by
      rintro _ ⟨⟩
      exact hl
    exponents_le := by
      rintro _ ⟨⟩ p hp
      exact (hs p hp).2
    isIdentifier := by
      rintro _ ⟨⟩ p hp
      exact (hs p hp).1 }

/-- A natural number in range with a canonical unit behind it, of symbols that can be typed and
exponents that can be read, is read as itself. -/
theorem runLine_shown_unit [Host] {env : Environment} (hd : env.maxDepth = Environment.defaultDepth)
    {f : Fraction} (hc : f.Canonical)
    (hs : ∀ p ∈ f.numerator ++ f.denominator, IsIdentifier k p.1 ∧ p.2 ≤ maxExponent)
    (hl : f.numerator.length + f.denominator.length ≤ 90) {n : Int} (h₀ : 0 ≤ n)
    (hn : n ≤ Whole.greatest) :
    (runLine k env (toString n ++ "[" ++ unit (.fraction f) ++ "]").toList).1 =
      .ok (some ⟨.int n, some f⟩) := by
  have hleast : Whole.least = -2 ^ 127 := rfl
  have hrange : Whole.InRange n := ⟨by omega, hn⟩
  have hnumeral := isNumeral_int (k := k) .decimal 0 hrange (by omega)
  have hrun := runLine_numeral hd hnumeral (isTyped_of_canonical hc hs hl)
  have htext : (toString n ++ "[" ++ unit (.fraction f) ++ "]").toList =
      int .decimal 0 n ++ suffix (some f) := by
    simp only [String.toList_append, toList_toString, List.append_assoc]
    rfl
  rw [htext, minus_int]
  exact hrun

def energy : Fraction := ⟨[("g", 1), ("m", 2)], [("s", 2)]⟩

theorem runLine_shown_energy : energy.Canonical ∧
    (runLine .standard .fresh "7[g*m^2/s^2]".toList).1 = .ok (some ⟨.int 7, some energy⟩) := by
  have hcanonical : energy.Canonical :=
    ⟨by decide, by decide, by decide, by decide, by decide, by decide⟩
  have hall : ((energy.numerator ++ energy.denominator).all fun p =>
      isAsciiWord p.1 && p.2 ≤ maxExponent) = true := by decide
  have hsymbols : ∀ p ∈ energy.numerator ++ energy.denominator,
      IsIdentifier .standard p.1 ∧ p.2 ≤ maxExponent := by
    intro p hp
    obtain ⟨hword, hle⟩ := Bool.and_eq_true_iff.1 (List.all_eq_true.1 hall p hp)
    exact ⟨isIdentifier_of_isAsciiWord hword, of_decide_eq_true hle⟩
  have htext : toString (7 : Int) ++ "[" ++ unit (.fraction energy) ++ "]" = "7[g*m^2/s^2]" := rfl
  refine ⟨hcanonical, ?_⟩
  rw [← htext]
  exact runLine_shown_unit rfl hcanonical hsymbols (by decide) (by decide) (by decide)

end Display

end UnitCalculator
