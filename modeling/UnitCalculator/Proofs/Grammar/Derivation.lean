import UnitCalculator.Grammar.Rules

/-!
Derivations in the grammar of a line. A derivation is data: the tokens it yields and the term it
stands for are functions of it, so that two derivations of one line can be compared.
-/

set_option autoImplicit false

namespace UnitCalculator

inductive NameKind where
  | constant | function | command | var
  deriving DecidableEq, Repr

def Names.kind (names : Names) (s : String) : NameKind :=
  if names.isConstant s then .constant
  else if names.isFunction s then .function
  else if names.isCommand s then .command
  else .var

namespace Grammar

inductive Symbol where
  | assign | expr | additions | product | factors | unary | power | primary
  | arguments | moreArguments | brackets
  | unit | unitFactors | unitTerm | unitAtom
  deriving DecidableEq, Repr

/-- A chain of operators stands for what it makes of the term before it. -/
abbrev Meaning : Symbol → Type
  | .additions | .factors | .unitFactors => Term → Term
  | .arguments | .moreArguments => List Term
  | _ => Term

/-- The names behind a literal: an optional prefix and an optional imaginary unit, or both in one
name that is no constant. -/
inductive Suffixes (names : Names) where
  | none
  | imaginary (i : String) (hi : isImaginaryName i = true)
  | scaled (p : String) (f : Float) (hp : prefixName? p = some f)
  | scaledImaginary (p i : String) (f : Float) (hp : prefixName? p = some f)
      (hi : isImaginaryName i = true)
  | glued (s : String) (f : Float) (hs : prefixedImaginary? s = some f)
      (hc : names.isConstant s = false)

namespace Suffixes

variable {names : Names}

def tokens : Suffixes names → List Token
  | none => []
  | imaginary i _ => [.ident i]
  | scaled p _ _ => [.ident p]
  | scaledImaginary p i _ _ _ => [.ident p, .ident i]
  | glued s _ _ _ => [.ident s]

def ofImaginary (a : Number) : Number := .complex ⟨0, a.toComplex.re⟩

def value (a : Number) : Suffixes names → Number
  | none => a
  | imaginary _ _ => ofImaginary a
  | scaled _ f _ => a.scale f
  | scaledImaginary _ _ f _ _ => ofImaginary (a.scale f)
  | glued _ f _ _ => ofImaginary (a.scale f)

end Suffixes

theorem isImaginaryName_not_prefix {s : String} (h : isImaginaryName s = true) :
    prefixName? s = none ∧ prefixedImaginary? s = none := by
  have hs : s = "i" ∨ s = "j" := by simpa [isImaginaryName] using h
  obtain rfl | rfl := hs
  · exact ⟨rfl, rfl⟩
  · exact ⟨rfl, rfl⟩

theorem prefixedImaginary?_not_prefix {s : String} {f : Float}
    (h : prefixedImaginary? s = some f) : prefixName? s = none := by
  unfold prefixedImaginary? at h
  split at h
  · next c d hs => simp [prefixName?, hs]
  · cases h

inductive Derivation (names : Names) : Symbol → Type where
  -- assign
  | value : Derivation names .expr → Derivation names .assign
  | assignment : Derivation names .expr → Derivation names .expr → Derivation names .assign
  -- expr
  | sum : Derivation names .product → Derivation names .additions → Derivation names .expr
  | noAddition : Derivation names .additions
  | addition (o : Operator) (ho : isAdditive o = true) :
      Derivation names .product → Derivation names .additions → Derivation names .additions
  -- mul
  | product : Derivation names .unary → Derivation names .factors → Derivation names .product
  | noFactor : Derivation names .factors
  | factor (o : Operator) (ho : isMultiplicative o = true) :
      Derivation names .unary → Derivation names .factors → Derivation names .factors
  -- unary, power
  | signed (o : Operator) (ho : isAdditive o = true) :
      Derivation names .unary → Derivation names .unary
  | unsigned : Derivation names .power → Derivation names .unary
  | plain : Derivation names .primary → Derivation names .power
  | raised : Derivation names .primary → Derivation names .unary → Derivation names .power
  -- primary
  | number (t : Token) (a : Number) (ht : literal? t = some a) (x : Suffixes names) :
      Derivation names .brackets → Derivation names .primary
  | parenthesized : Derivation names .expr → Derivation names .primary
  | name (s : String) (hs : names.kind s = .constant ∨ names.kind s = .var) :
      Derivation names .primary
  | call (f : String) (hf : names.kind f = .function) :
      Derivation names .arguments → Derivation names .primary
  | command (c : String) (hc : names.kind c = .command) (ts : List Token)
      (hts : Token.op .closeParen ∉ ts) : Derivation names .primary
  | noArguments : Derivation names .arguments
  | someArguments :
      Derivation names .expr → Derivation names .moreArguments → Derivation names .arguments
  | lastArgument : Derivation names .moreArguments
  | nextArgument :
      Derivation names .expr → Derivation names .moreArguments → Derivation names .moreArguments
  -- number
  | noUnit : Derivation names .brackets
  | bracketed : Derivation names .unit → Derivation names .brackets
  -- unit
  | unit : Derivation names .unitTerm → Derivation names .unitFactors → Derivation names .unit
  | noUnitFactor : Derivation names .unitFactors
  | unitFactor (o : Operator) (ho : isUnitOperator o = true) :
      Derivation names .unitTerm → Derivation names .unitFactors → Derivation names .unitFactors
  | unitPlain : Derivation names .unitAtom → Derivation names .unitTerm
  | unitRaised : Derivation names .unitAtom → (n : Int) → Derivation names .unitTerm
  | symbol (s : String) : Derivation names .unitAtom
  | one : Derivation names .unitAtom
  | unitParenthesized : Derivation names .unit → Derivation names .unitAtom

namespace Derivation

variable {names : Names}

@[simp] def yield : {s : Symbol} → Derivation names s → List Token
  | _, value e => e.yield
  | _, assignment l r => l.yield ++ .op .equals :: r.yield
  | _, sum p a => p.yield ++ a.yield
  | _, noAddition => []
  | _, addition o _ p a => .op o :: (p.yield ++ a.yield)
  | _, product u f => u.yield ++ f.yield
  | _, noFactor => []
  | _, factor o _ u f => .op o :: (u.yield ++ f.yield)
  | _, signed o _ u => .op o :: u.yield
  | _, unsigned p => p.yield
  | _, plain p => p.yield
  | _, raised p u => p.yield ++ .op .caret :: u.yield
  | _, number t _ _ x b => t :: (x.tokens ++ b.yield)
  | _, parenthesized e => .op .openParen :: (e.yield ++ [.op .closeParen])
  | _, name s _ => [.ident s]
  | _, call f _ a => .ident f :: a.yield
  | _, command c _ ts _ => .ident c :: .op .openParen :: (ts ++ [.op .closeParen])
  | _, noArguments => [.op .openParen, .op .closeParen]
  | _, someArguments e m => .op .openParen :: (e.yield ++ m.yield ++ [.op .closeParen])
  | _, lastArgument => []
  | _, nextArgument e m => .op .comma :: (e.yield ++ m.yield)
  | _, noUnit => []
  | _, bracketed u => .op .openBracket :: (u.yield ++ [.op .closeBracket])
  | _, unit u f => u.yield ++ f.yield
  | _, noUnitFactor => []
  | _, unitFactor o _ u f => .op o :: (u.yield ++ f.yield)
  | _, unitPlain a => a.yield
  | _, unitRaised a n => a.yield ++ [.op .caret, .int n]
  | _, symbol s => [.ident s]
  | _, one => [.int 1]
  | _, unitParenthesized u => .op .openParen :: (u.yield ++ [.op .closeParen])

/-- The term of a derivation. Operators in a chain group to the left. -/
def tree : {s : Symbol} → Derivation names s → Meaning s
  | _, value e => e.tree
  | _, assignment l r => Term.binary .equals l.tree r.tree
  | _, sum p a => a.tree p.tree
  | _, noAddition => fun l => l
  | _, addition o _ p a => fun l => a.tree (.binary o l p.tree)
  | _, product u f => f.tree u.tree
  | _, noFactor => fun l => l
  | _, factor o _ u f => fun l => f.tree (.binary o l u.tree)
  | _, signed o _ u => Term.signed o u.tree
  | _, unsigned p => p.tree
  | _, plain p => p.tree
  | _, raised p u => Term.binary .caret p.tree u.tree
  | _, number _ a _ x b => Term.number (x.value a) b.tree
  | _, parenthesized e => e.tree
  | _, name s _ => Term.name s
  | _, call f _ a => Term.call f a.tree
  | _, command c _ ts _ => Term.command c (ts.filter (· ≠ .op .comma))
  | _, noArguments => []
  | _, someArguments e m => e.tree :: m.tree
  | _, lastArgument => []
  | _, nextArgument e m => e.tree :: m.tree
  | _, noUnit => Term.absent
  | _, bracketed u => Term.bracketed u.tree
  | _, unit u f => f.tree u.tree
  | _, noUnitFactor => fun l => l
  | _, unitFactor o _ u f => fun l => f.tree (.binary o l u.tree)
  | _, unitPlain a => a.tree
  | _, unitRaised a n => Term.binary .caret a.tree (.int n)
  | _, symbol s => Term.name s
  | _, one => Term.int 1
  | _, unitParenthesized u => u.tree

/-- How many levels a derivation goes in. An operator of a chain is entered as what it makes of the
term before it, and so is each one behind it. -/
@[simp] def levels : {s : Symbol} → Derivation names s → Nat
  | _, value e => e.levels
  | _, assignment l r => max l.levels r.levels
  | _, sum p a => max p.levels a.levels + 1
  | _, noAddition => 0
  | _, addition _ _ p a => max p.levels a.levels + 1
  | _, product u f => max u.levels f.levels
  | _, noFactor => 0
  | _, factor _ _ u f => max u.levels f.levels + 1
  | _, signed _ _ u => u.levels + 1
  | _, unsigned p => p.levels
  | _, plain p => p.levels
  | _, raised p u => max p.levels (u.levels + 1)
  | _, number _ _ _ _ b => b.levels
  | _, parenthesized e => e.levels
  | _, name _ _ => 0
  | _, call _ _ a => a.levels
  | _, command _ _ _ _ => 0
  | _, noArguments => 0
  | _, someArguments e m => max e.levels m.levels
  | _, lastArgument => 0
  | _, nextArgument e m => max e.levels m.levels
  | _, noUnit => 0
  | _, bracketed u => u.levels
  | _, unit u f => max u.levels f.levels + 1
  | _, noUnitFactor => 0
  | _, unitFactor _ _ u f => max u.levels f.levels + 1
  | _, unitPlain a => a.levels
  | _, unitRaised a _ => a.levels
  | _, symbol _ => 0
  | _, one => 0
  | _, unitParenthesized u => u.levels

end Derivation

/-! What may stand behind a phrase -/

/-- How strongly a token holds on to what stands before it, zero for not at all. -/
def grip : Token → Nat
  | .ident _ => 5
  | .op .openBracket => 5
  | .op .caret => 4
  | .op .times | .op .slash | .op .percent | .op .parallel => 3
  | .op .plus | .op .minus => 2
  | .op .comma | .op .equals => 1
  | _ => 0

/-- The strongest grip that leaves a phrase as it is. -/
@[simp] def Symbol.bound : Symbol → Nat
  | .assign | .moreArguments => 0
  | .expr | .additions => 1
  | .product | .factors | .unit | .unitFactors => 2
  | .unary | .power | .unitTerm => 3
  | .primary | .brackets => 4
  | .arguments | .unitAtom => 5

def Symbol.Ends (s : Symbol) (r : List Token) : Prop := ∀ t ∈ r.head?, grip t ≤ s.bound

@[simp] theorem Symbol.ends_nil (s : Symbol) : s.Ends [] := by simp [Symbol.Ends]

@[simp] theorem Symbol.ends_cons {s : Symbol} {t : Token} {r : List Token} :
    s.Ends (t :: r) ↔ grip t ≤ s.bound := by simp [Symbol.Ends]

theorem Symbol.Ends.weaken {s s' : Symbol} {r : List Token} (h : s.Ends r)
    (hb : s.bound ≤ s'.bound) : s'.Ends r := fun t ht => Nat.le_trans (h t ht) hb

theorem grip_additive {o : Operator} (ho : isAdditive o = true) : grip (.op o) = 2 := by
  cases o with
  | plus | minus => rfl
  | _ => cases ho

theorem grip_multiplicative {o : Operator} (ho : isMultiplicative o = true) :
    grip (.op o) = 3 := by
  cases o with
  | times | slash | percent | parallel => rfl
  | _ => cases ho

theorem grip_unitOperator {o : Operator} (ho : isUnitOperator o = true) : grip (.op o) = 3 := by
  cases o with
  | times | slash => rfl
  | _ => cases ho

/-! An operator of a chain continues the chain. -/

theorem additions_bound_lt {o : Operator} (ho : isAdditive o = true) :
    Symbol.additions.bound < grip (.op o) := by
  have hg := grip_additive ho
  simp [hg]

theorem factors_bound_lt {o : Operator} (ho : isMultiplicative o = true) :
    Symbol.factors.bound < grip (.op o) := by
  have hg := grip_multiplicative ho
  simp [hg]

theorem unitFactors_bound_lt {o : Operator} (ho : isUnitOperator o = true) :
    Symbol.unitFactors.bound < grip (.op o) := by
  have hg := grip_unitOperator ho
  simp [hg]

theorem Symbol.not_ends {s : Symbol} {t : Token} {r : List Token} (h : s.bound < grip t) :
    ¬s.Ends (t :: r) := by
  rw [Symbol.ends_cons]
  omega

namespace Derivation

variable {names : Names} {r : List Token}

theorem ends_additions (a : Derivation names .additions) (h : Symbol.expr.Ends r) :
    Symbol.product.Ends (a.yield ++ r) := by
  cases a with
  | noAddition => exact h.weaken (by decide)
  | addition o ho p a =>
    have hg := grip_additive ho
    simp [yield, Symbol.bound, hg]

theorem ends_factors (f : Derivation names .factors) (h : Symbol.product.Ends r) :
    Symbol.unary.Ends (f.yield ++ r) := by
  cases f with
  | noFactor => exact h.weaken (by decide)
  | factor o ho u f =>
    have hg := grip_multiplicative ho
    simp [yield, Symbol.bound, hg]

theorem ends_unitFactors (f : Derivation names .unitFactors) (h : Symbol.unit.Ends r) :
    Symbol.unitTerm.Ends (f.yield ++ r) := by
  cases f with
  | noUnitFactor => exact h.weaken (by decide)
  | unitFactor o ho u f =>
    have hg := grip_unitOperator ho
    simp [yield, Symbol.bound, hg]

theorem ends_moreArguments (m : Derivation names .moreArguments)
    (h : Symbol.moreArguments.Ends r) : Symbol.expr.Ends (m.yield ++ r) := by
  cases m with
  | lastArgument => exact h.weaken (by decide)
  | nextArgument e m => simp [yield, grip, Symbol.bound]

theorem ends_brackets (b : Derivation names .brackets) (h : Symbol.primary.Ends r) (s : String) :
    (b.yield ++ r).head? ≠ some (.ident s) := by
  cases b with
  | noUnit =>
    intro hs
    have hg := h (.ident s) hs
    simp [grip, Symbol.bound] at hg
  | bracketed u => simp [yield]

/-! How phrases begin -/

def opens : Token → Bool
  | .op o => o = .openParen
  | _ => true

theorem primary_opens (d : Derivation names .primary) : ∃ t l, d.yield = t :: l ∧ opens t := by
  cases d with
  | number t a ht x b =>
    refine ⟨t, _, rfl, ?_⟩
    cases t with
    | op o => cases ht
    | _ => rfl
  | _ => exact ⟨_, _, rfl, rfl⟩

theorem power_opens (d : Derivation names .power) : ∃ t l, d.yield = t :: l ∧ opens t := by
  cases d with
  | plain p => exact primary_opens p
  | raised p u =>
    obtain ⟨t, l, hp, ht⟩ := primary_opens p
    exact ⟨t, l ++ .op .caret :: u.yield, by rw [yield, hp]; rfl, ht⟩

/-- An operand that is not signed is not read as one that is. -/
theorem power_not_additive (d : Derivation names .power) {o : Operator}
    (ho : isAdditive o = true) : (d.yield ++ r).head? ≠ some (.op o) := by
  obtain ⟨t, l, hd, ht⟩ := power_opens d
  intro h
  rw [hd] at h
  obtain rfl : t = .op o := by simpa using h
  have ho' : o = .openParen := by simpa [opens] using ht
  rw [ho'] at ho
  cases ho

theorem unary_ne_closeParen (d : Derivation names .unary) :
    ∃ t l, d.yield = t :: l ∧ t ≠ .op .closeParen := by
  cases d with
  | signed o ho u =>
    refine ⟨_, _, rfl, ?_⟩
    intro h
    cases h
    cases ho
  | unsigned p =>
    obtain ⟨t, l, hp, ht⟩ := power_opens p
    refine ⟨t, l, hp, ?_⟩
    intro h
    rw [h] at ht
    cases ht

theorem expr_ne_closeParen (d : Derivation names .expr) :
    ∃ t l, d.yield = t :: l ∧ t ≠ .op .closeParen := by
  cases d with
  | sum p a =>
    cases p with
    | product u f =>
      obtain ⟨t, l, hu, ht⟩ := unary_ne_closeParen u
      exact ⟨t, l ++ f.yield ++ a.yield, by simp [yield, hu], ht⟩

end Derivation
end Grammar
end UnitCalculator
