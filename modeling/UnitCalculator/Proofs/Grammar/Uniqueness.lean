import UnitCalculator.Proofs.Grammar.Derivation

/-!
The grammar is unambiguous. Two phrases of one kind that begin one list of tokens, and that what
follows them does not continue, are one phrase.
-/

set_option autoImplicit false

namespace UnitCalculator.Grammar

variable {names : Names}

theorem Suffixes.unique (x y : Suffixes names) {l m : List Token}
    (hl : ∀ s, l.head? ≠ some (.ident s)) (hm : ∀ s, m.head? ≠ some (.ident s))
    (h : x.tokens ++ l = y.tokens ++ m) : x = y ∧ l = m := by
  have hl' : ∀ s r, l ≠ .ident s :: r := fun s r h => hl s (by rw [h]; rfl)
  have hm' : ∀ s r, m ≠ .ident s :: r := fun s r h => hm s (by rw [h]; rfl)
  cases x <;> cases y <;>
    simp only [tokens, List.cons_append, List.nil_append, List.cons.injEq,
      Token.ident.injEq] at h <;>
    grind [→ isImaginaryName_not_prefix, → prefixedImaginary?_not_prefix]

/-- No other phrase of its kind begins the same tokens, if what follows continues neither. -/
def Unique {s : Symbol} (d : Derivation names s) : Prop :=
  ∀ (e : Derivation names s) (r r' : List Token), s.Ends r → s.Ends r' →
    d.yield ++ r = e.yield ++ r' → d = e ∧ r = r'

theorem append_cons_unique {t : Token} {x y r r' : List Token} (hx : t ∉ x) (hy : t ∉ y)
    (h : x ++ t :: r = y ++ t :: r') : x = y ∧ r = r' := by
  induction x generalizing y with
  | nil =>
    cases y with
    | nil => exact ⟨rfl, (List.cons.inj h).2⟩
    | cons u y =>
      obtain rfl := (List.cons.inj h).1
      exact absurd List.mem_cons_self hy
  | cons u x ih =>
    cases y with
    | nil =>
      obtain rfl := (List.cons.inj h).1
      exact absurd List.mem_cons_self hx
    | cons v y =>
      obtain ⟨rfl, h'⟩ := List.cons.inj h
      have hx' : t ∉ x := fun ht => hx (List.mem_cons_of_mem u ht)
      have hy' : t ∉ y := fun ht => hy (List.mem_cons_of_mem u ht)
      obtain ⟨rfl, rfl⟩ := ih hx' hy' h'
      exact ⟨rfl, rfl⟩

theorem Unique.append {s s' : Symbol} {a a' : Derivation names s} {b b' : Derivation names s'}
    {r r' : List Token} (ha : Unique a) (hb : Unique b) (hs : s.Ends (b.yield ++ r))
    (hs' : s.Ends (b'.yield ++ r')) (hr : s'.Ends r) (hr' : s'.Ends r')
    (h : a.yield ++ b.yield ++ r = a'.yield ++ b'.yield ++ r') : a = a' ∧ b = b' ∧ r = r' := by
  rw [List.append_assoc, List.append_assoc] at h
  obtain ⟨rfl, h'⟩ := ha a' _ _ hs hs' h
  obtain ⟨rfl, rfl⟩ := hb b' r r' hr hr' h'
  exact ⟨rfl, rfl, rfl⟩

theorem Unique.close {s : Symbol} {a a' : Derivation names s} {t : Token} {r r' : List Token}
    (ha : Unique a) (ht : grip t ≤ s.bound)
    (h : a.yield ++ [t] ++ r = a'.yield ++ [t] ++ r') : a = a' ∧ r = r' := by
  rw [List.append_assoc, List.append_assoc] at h
  obtain ⟨rfl, h'⟩ := ha a' _ _ (Symbol.ends_cons.2 ht) (Symbol.ends_cons.2 ht) h
  exact ⟨rfl, (List.cons.inj h').2⟩

/-- Where a phrase may be empty, every other one begins with a token that continues. -/
theorem unique_empty {s : Symbol} {d : Derivation names s} (hd : d.yield = [])
    (h : ∀ e : Derivation names s, e = d ∨ ∃ t l, e.yield = t :: l ∧ s.bound < grip t) :
    Unique d := by
  intro e r r' hr _ he
  obtain rfl | ⟨t, l, hy, ht⟩ := h e
  · exact ⟨rfl, by simpa using he⟩
  · rw [hd, hy] at he
    obtain rfl : r = _ := he
    have hg := Symbol.ends_cons.1 hr
    omega

namespace Derivation

/-! Whole lines -/

theorem unique_value {e : Derivation names .expr} (h : Unique e) : Unique (value e) := by
  intro d r r' hr hr' hd
  cases d with
  | value e' =>
    obtain ⟨rfl, rfl⟩ := h e' r r' (hr.weaken (by decide)) (hr'.weaken (by decide)) hd
    exact ⟨rfl, rfl⟩
  | assignment l' e' =>
    simp only [yield, List.append_assoc, List.cons_append] at hd
    obtain ⟨-, rfl⟩ := h l' r _ (hr.weaken (by decide)) (Symbol.ends_cons.2 (by decide)) hd
    exact absurd (Symbol.ends_cons.1 hr) (by decide)

theorem unique_assignment {l e : Derivation names .expr} (hl : Unique l) (he : Unique e) :
    Unique (assignment l e) := by
  intro d r r' hr hr' hd
  cases d with
  | value e' =>
    simp only [yield, List.append_assoc, List.cons_append] at hd
    obtain ⟨-, rfl⟩ := hl e' _ r' (Symbol.ends_cons.2 (by decide)) (hr'.weaken (by decide)) hd
    exact absurd (Symbol.ends_cons.1 hr') (by decide)
  | assignment l' e' =>
    simp only [yield, List.append_assoc, List.cons_append] at hd
    obtain ⟨rfl, h⟩ := hl l' _ _ (Symbol.ends_cons.2 (by decide)) (Symbol.ends_cons.2 (by decide)) hd
    obtain ⟨rfl, rfl⟩ := he e' r r' (hr.weaken (by decide)) (hr'.weaken (by decide))
      (List.cons.inj h).2
    exact ⟨rfl, rfl⟩

/-! Sums -/

theorem unique_sum {p : Derivation names .product} {a : Derivation names .additions}
    (hp : Unique p) (ha : Unique a) : Unique (sum p a) := by
  intro d r r' hr hr' hd
  cases d with
  | sum p' a' =>
    obtain ⟨rfl, rfl, rfl⟩ := hp.append ha (ends_additions a hr) (ends_additions a' hr') hr hr' hd
    exact ⟨rfl, rfl⟩

theorem unique_noAddition : Unique (noAddition : Derivation names .additions) := by
  refine unique_empty rfl fun e => ?_
  cases e with
  | noAddition => exact .inl rfl
  | addition o ho p a =>
    exact .inr ⟨_, _, rfl, additions_bound_lt ho⟩

theorem unique_addition {o : Operator} {ho : isAdditive o = true} {p : Derivation names .product}
    {a : Derivation names .additions} (hp : Unique p) (ha : Unique a) :
    Unique (addition o ho p a) := by
  intro d r r' hr hr' hd
  cases d with
  | noAddition =>
    obtain rfl : _ = r' := hd
    exact absurd hr' (Symbol.not_ends (additions_bound_lt ho))
  | addition o' ho' p' a' =>
    simp only [yield, List.cons_append, List.cons.injEq, Token.op.injEq] at hd
    obtain ⟨rfl, hd⟩ := hd
    obtain ⟨rfl, rfl, rfl⟩ := hp.append ha (ends_additions a hr) (ends_additions a' hr') hr hr' hd
    exact ⟨rfl, rfl⟩

/-! Products -/

theorem unique_product {u : Derivation names .unary} {f : Derivation names .factors}
    (hu : Unique u) (hf : Unique f) : Unique (product u f) := by
  intro d r r' hr hr' hd
  cases d with
  | product u' f' =>
    obtain ⟨rfl, rfl, rfl⟩ := hu.append hf (ends_factors f hr) (ends_factors f' hr') hr hr' hd
    exact ⟨rfl, rfl⟩

theorem unique_noFactor : Unique (noFactor : Derivation names .factors) := by
  refine unique_empty rfl fun e => ?_
  cases e with
  | noFactor => exact .inl rfl
  | factor o ho u f =>
    exact .inr ⟨_, _, rfl, factors_bound_lt ho⟩

theorem unique_factor {o : Operator} {ho : isMultiplicative o = true}
    {u : Derivation names .unary} {f : Derivation names .factors} (hu : Unique u)
    (hf : Unique f) : Unique (factor o ho u f) := by
  intro d r r' hr hr' hd
  cases d with
  | noFactor =>
    obtain rfl : _ = r' := hd
    exact absurd hr' (Symbol.not_ends (factors_bound_lt ho))
  | factor o' ho' u' f' =>
    simp only [yield, List.cons_append, List.cons.injEq, Token.op.injEq] at hd
    obtain ⟨rfl, hd⟩ := hd
    obtain ⟨rfl, rfl, rfl⟩ := hu.append hf (ends_factors f hr) (ends_factors f' hr') hr hr' hd
    exact ⟨rfl, rfl⟩

/-! Signs and powers -/

theorem unique_signed {o : Operator} {ho : isAdditive o = true} {u : Derivation names .unary}
    (hu : Unique u) : Unique (signed o ho u) := by
  intro d r r' hr hr' hd
  cases d with
  | signed o' ho' u' =>
    simp only [yield, List.cons_append, List.cons.injEq, Token.op.injEq] at hd
    obtain ⟨rfl, hd⟩ := hd
    obtain ⟨rfl, rfl⟩ := hu u' r r' hr hr' hd
    exact ⟨rfl, rfl⟩
  | unsigned p =>
    have hp := congrArg List.head? hd
    exact absurd hp.symm (power_not_additive p ho)

theorem unique_unsigned {p : Derivation names .power} (hp : Unique p) : Unique (unsigned p) := by
  intro d r r' hr hr' hd
  cases d with
  | signed o ho u =>
    have hp := congrArg List.head? hd
    exact absurd hp (power_not_additive p ho)
  | unsigned p' =>
    obtain ⟨rfl, rfl⟩ := hp p' r r' hr hr' hd
    exact ⟨rfl, rfl⟩

theorem unique_plain {p : Derivation names .primary} (hp : Unique p) : Unique (plain p) := by
  intro d r r' hr hr' hd
  cases d with
  | plain p' =>
    obtain ⟨rfl, rfl⟩ := hp p' r r' (hr.weaken (by decide)) (hr'.weaken (by decide)) hd
    exact ⟨rfl, rfl⟩
  | raised p' u =>
    simp only [yield, List.append_assoc, List.cons_append] at hd
    obtain ⟨-, rfl⟩ := hp p' r _ (hr.weaken (by decide)) (Symbol.ends_cons.2 (by decide)) hd
    exact absurd (Symbol.ends_cons.1 hr) (by decide)

theorem unique_raised {p : Derivation names .primary} {u : Derivation names .unary}
    (hp : Unique p) (hu : Unique u) : Unique (raised p u) := by
  intro d r r' hr hr' hd
  cases d with
  | plain p' =>
    simp only [yield, List.append_assoc, List.cons_append] at hd
    obtain ⟨-, rfl⟩ := hp p' _ r' (Symbol.ends_cons.2 (by decide)) (hr'.weaken (by decide)) hd
    exact absurd (Symbol.ends_cons.1 hr') (by decide)
  | raised p' u' =>
    simp only [yield, List.append_assoc, List.cons_append] at hd
    obtain ⟨rfl, h⟩ := hp p' _ _ (Symbol.ends_cons.2 (by decide)) (Symbol.ends_cons.2 (by decide)) hd
    obtain ⟨rfl, rfl⟩ := hu u' r r' hr hr' (List.cons.inj h).2
    exact ⟨rfl, rfl⟩

/-! Operands -/

theorem unique_number {t : Token} {a : Number} {ht : literal? t = some a} {x : Suffixes names}
    {b : Derivation names .brackets} (hb : Unique b) : Unique (number t a ht x b) := by
  intro d r r' hr hr' hd
  cases d with
  | number t' a' ht' x' b' =>
    simp only [yield, List.cons_append, List.append_assoc, List.cons.injEq] at hd
    obtain ⟨rfl, hd⟩ := hd
    obtain rfl : a = a' := Option.some.inj (ht.symm.trans ht')
    obtain ⟨rfl, h⟩ := x.unique x' (ends_brackets b hr) (ends_brackets b' hr') hd
    obtain ⟨rfl, rfl⟩ := hb b' r r' hr hr' h
    exact ⟨rfl, rfl⟩
  | _ =>
    obtain rfl := (List.cons.inj hd).1
    cases ht

theorem unique_parenthesized {e : Derivation names .expr} (he : Unique e) :
    Unique (parenthesized e) := by
  intro d r r' hr hr' hd
  cases d with
  | number t a ht x b =>
    obtain rfl := (List.cons.inj hd).1
    cases ht
  | parenthesized e' =>
    simp only [yield, List.cons_append, List.cons.injEq, true_and] at hd
    obtain ⟨rfl, rfl⟩ := he.close (by decide) hd
    exact ⟨rfl, rfl⟩
  | _ => cases (List.cons.inj hd).1

theorem unique_name {s : String} {hs : names.kind s = .constant ∨ names.kind s = .var} :
    Unique (name s hs) := by
  intro d r r' hr hr' hd
  cases d with
  | name s' hs' =>
    cases hd
    exact ⟨rfl, rfl⟩
  | number t a ht x b =>
    obtain rfl := (List.cons.inj hd).1
    cases ht
  | parenthesized e => cases (List.cons.inj hd).1
  | call f hf a =>
    cases (List.cons.inj hd).1
    simp [hf] at hs
  | command c hc ts hts =>
    cases (List.cons.inj hd).1
    simp [hc] at hs

theorem unique_call {f : String} {hf : names.kind f = .function}
    {a : Derivation names .arguments} (ha : Unique a) : Unique (call f hf a) := by
  intro d r r' hr hr' hd
  cases d with
  | call f' hf' a' =>
    simp only [yield, List.cons_append, List.cons.injEq, Token.ident.injEq] at hd
    obtain ⟨rfl, hd⟩ := hd
    obtain ⟨rfl, rfl⟩ := ha a' r r' (hr.weaken (by decide)) (hr'.weaken (by decide)) hd
    exact ⟨rfl, rfl⟩
  | number t a ht x b =>
    obtain rfl := (List.cons.inj hd).1
    cases ht
  | parenthesized e => cases (List.cons.inj hd).1
  | name s hs =>
    cases (List.cons.inj hd).1
    simp [hf] at hs
  | command c hc ts hts =>
    cases (List.cons.inj hd).1
    cases hf.symm.trans hc

theorem unique_command {c : String} {hc : names.kind c = .command} {ts : List Token}
    {hts : Token.op .closeParen ∉ ts} : Unique (command c hc ts hts) := by
  intro d r r' hr hr' hd
  cases d with
  | command c' hc' ts' hts' =>
    simp only [yield, List.cons_append, List.append_assoc, List.cons.injEq, Token.ident.injEq,
      true_and, List.nil_append] at hd
    obtain ⟨rfl, hd⟩ := hd
    obtain ⟨rfl, rfl⟩ := append_cons_unique hts hts' hd
    exact ⟨rfl, rfl⟩
  | number t a ht x b =>
    obtain rfl := (List.cons.inj hd).1
    cases ht
  | parenthesized e => cases (List.cons.inj hd).1
  | name s hs =>
    cases (List.cons.inj hd).1
    simp [hc] at hs
  | call f hf a =>
    cases (List.cons.inj hd).1
    cases hc.symm.trans hf

/-! Arguments -/

theorem unique_noArguments : Unique (noArguments : Derivation names .arguments) := by
  intro d r r' hr hr' hd
  cases d with
  | noArguments => exact ⟨rfl, (List.cons.inj (List.cons.inj hd).2).2⟩
  | someArguments e m =>
    obtain ⟨t, l, he, ht⟩ := expr_ne_closeParen e
    simp only [yield, List.cons_append, he, List.cons.injEq, true_and] at hd
    exact absurd hd.1.symm ht

theorem unique_someArguments {e : Derivation names .expr} {m : Derivation names .moreArguments}
    (he : Unique e) (hm : Unique m) : Unique (someArguments e m) := by
  intro d r r' hr hr' hd
  cases d with
  | noArguments =>
    obtain ⟨t, l, he, ht⟩ := expr_ne_closeParen e
    simp only [yield, List.cons_append, he, List.cons.injEq, true_and] at hd
    exact absurd hd.1 ht
  | someArguments e' m' =>
    simp only [yield, List.cons_append, List.cons.injEq, true_and] at hd
    rw [List.append_assoc, List.append_assoc _ _ r'] at hd
    have hc : ∀ l, Symbol.moreArguments.Ends ([.op .closeParen] ++ l) :=
      fun l => Symbol.ends_cons.2 (by decide)
    obtain ⟨rfl, rfl, h⟩ := he.append hm (ends_moreArguments m (hc r))
      (ends_moreArguments m' (hc r')) (hc r) (hc r') hd
    exact ⟨rfl, (List.cons.inj h).2⟩

theorem unique_lastArgument : Unique (lastArgument : Derivation names .moreArguments) := by
  refine unique_empty rfl fun e => ?_
  cases e with
  | lastArgument => exact .inl rfl
  | nextArgument e m => exact .inr ⟨_, _, rfl, by decide⟩

theorem unique_nextArgument {e : Derivation names .expr} {m : Derivation names .moreArguments}
    (he : Unique e) (hm : Unique m) : Unique (nextArgument e m) := by
  intro d r r' hr hr' hd
  cases d with
  | lastArgument =>
    obtain rfl : _ = r' := hd
    exact absurd (Symbol.ends_cons.1 hr') (by decide)
  | nextArgument e' m' =>
    simp only [yield, List.cons_append, List.cons.injEq, true_and] at hd
    obtain ⟨rfl, rfl, rfl⟩ := he.append hm (ends_moreArguments m hr) (ends_moreArguments m' hr')
      hr hr' hd
    exact ⟨rfl, rfl⟩

/-! Units -/

theorem unique_noUnit : Unique (noUnit : Derivation names .brackets) := by
  refine unique_empty rfl fun e => ?_
  cases e with
  | noUnit => exact .inl rfl
  | bracketed u => exact .inr ⟨_, _, rfl, by decide⟩

theorem unique_bracketed {u : Derivation names .unit} (hu : Unique u) : Unique (bracketed u) := by
  intro d r r' hr hr' hd
  cases d with
  | noUnit =>
    obtain rfl : _ = r' := hd
    exact absurd (Symbol.ends_cons.1 hr') (by decide)
  | bracketed u' =>
    simp only [yield, List.cons_append, List.cons.injEq, true_and] at hd
    obtain ⟨rfl, rfl⟩ := hu.close (by decide) hd
    exact ⟨rfl, rfl⟩

theorem unique_unit {u : Derivation names .unitTerm} {f : Derivation names .unitFactors}
    (hu : Unique u) (hf : Unique f) : Unique (unit u f) := by
  intro d r r' hr hr' hd
  cases d with
  | unit u' f' =>
    obtain ⟨rfl, rfl, rfl⟩ := hu.append hf (ends_unitFactors f hr) (ends_unitFactors f' hr')
      hr hr' hd
    exact ⟨rfl, rfl⟩

theorem unique_noUnitFactor : Unique (noUnitFactor : Derivation names .unitFactors) := by
  refine unique_empty rfl fun e => ?_
  cases e with
  | noUnitFactor => exact .inl rfl
  | unitFactor o ho u f =>
    exact .inr ⟨_, _, rfl, unitFactors_bound_lt ho⟩

theorem unique_unitFactor {o : Operator} {ho : isUnitOperator o = true}
    {u : Derivation names .unitTerm} {f : Derivation names .unitFactors} (hu : Unique u)
    (hf : Unique f) : Unique (unitFactor o ho u f) := by
  intro d r r' hr hr' hd
  cases d with
  | noUnitFactor =>
    obtain rfl : _ = r' := hd
    exact absurd hr' (Symbol.not_ends (unitFactors_bound_lt ho))
  | unitFactor o' ho' u' f' =>
    simp only [yield, List.cons_append, List.cons.injEq, Token.op.injEq] at hd
    obtain ⟨rfl, hd⟩ := hd
    obtain ⟨rfl, rfl, rfl⟩ := hu.append hf (ends_unitFactors f hr) (ends_unitFactors f' hr')
      hr hr' hd
    exact ⟨rfl, rfl⟩

theorem ends_unitAtom (r : List Token) : Symbol.unitAtom.Ends r := by
  intro t _
  cases t with
  | op o => cases o <;> simp [grip, Symbol.bound]
  | _ => simp [grip, Symbol.bound]

theorem unique_unitPlain {a : Derivation names .unitAtom} (ha : Unique a) :
    Unique (unitPlain a) := by
  intro d r r' hr hr' hd
  cases d with
  | unitPlain a' =>
    obtain ⟨rfl, rfl⟩ := ha a' r r' (ends_unitAtom r) (ends_unitAtom r') hd
    exact ⟨rfl, rfl⟩
  | unitRaised a' n =>
    simp only [yield, List.append_assoc] at hd
    obtain ⟨-, rfl⟩ := ha a' _ _ (ends_unitAtom _) (ends_unitAtom _) hd
    exact absurd (Symbol.ends_cons.1 hr) (by decide)

theorem unique_unitRaised {a : Derivation names .unitAtom} (ha : Unique a) (n : Int) :
    Unique (unitRaised a n) := by
  intro d r r' hr hr' hd
  cases d with
  | unitPlain a' =>
    simp only [yield, List.append_assoc] at hd
    obtain ⟨-, rfl⟩ := ha a' _ _ (ends_unitAtom _) (ends_unitAtom _) hd
    exact absurd (Symbol.ends_cons.1 hr') (by decide)
  | unitRaised a' n' =>
    simp only [yield, List.append_assoc] at hd
    obtain ⟨rfl, h⟩ := ha a' _ _ (ends_unitAtom _) (ends_unitAtom _) hd
    cases h
    exact ⟨rfl, rfl⟩

theorem unique_symbol {s : String} : Unique (symbol s : Derivation names .unitAtom) := by
  intro d r r' hr hr' hd
  cases d with
  | symbol s' =>
    cases hd
    exact ⟨rfl, rfl⟩
  | _ => cases (List.cons.inj hd).1

theorem unique_one : Unique (one : Derivation names .unitAtom) := by
  intro d r r' hr hr' hd
  cases d with
  | one => exact ⟨rfl, (List.cons.inj hd).2⟩
  | _ => cases (List.cons.inj hd).1

theorem unique_unitParenthesized {u : Derivation names .unit} (hu : Unique u) :
    Unique (unitParenthesized u) := by
  intro d r r' hr hr' hd
  cases d with
  | unitParenthesized u' =>
    simp only [yield, List.cons_append, List.cons.injEq, true_and] at hd
    obtain ⟨rfl, rfl⟩ := hu.close (by decide) hd
    exact ⟨rfl, rfl⟩
  | _ => cases (List.cons.inj hd).1

theorem unique {s : Symbol} (d : Derivation names s) : Unique d := by
  induction d with
  | value _ h => exact unique_value h
  | assignment _ _ hl he => exact unique_assignment hl he
  | sum _ _ hp ha => exact unique_sum hp ha
  | noAddition => exact unique_noAddition
  | addition _ _ _ _ hp ha => exact unique_addition hp ha
  | product _ _ hu hf => exact unique_product hu hf
  | noFactor => exact unique_noFactor
  | factor _ _ _ _ hu hf => exact unique_factor hu hf
  | signed _ _ _ hu => exact unique_signed hu
  | unsigned _ hp => exact unique_unsigned hp
  | plain _ hp => exact unique_plain hp
  | raised _ _ hp hu => exact unique_raised hp hu
  | number _ _ _ _ _ hb => exact unique_number hb
  | parenthesized _ he => exact unique_parenthesized he
  | name _ _ => exact unique_name
  | call _ _ _ ha => exact unique_call ha
  | command _ _ _ _ => exact unique_command
  | noArguments => exact unique_noArguments
  | someArguments _ _ he hm => exact unique_someArguments he hm
  | lastArgument => exact unique_lastArgument
  | nextArgument _ _ he hm => exact unique_nextArgument he hm
  | noUnit => exact unique_noUnit
  | bracketed _ hu => exact unique_bracketed hu
  | unit _ _ hu hf => exact unique_unit hu hf
  | noUnitFactor => exact unique_noUnitFactor
  | unitFactor _ _ _ _ hu hf => exact unique_unitFactor hu hf
  | unitPlain _ ha => exact unique_unitPlain ha
  | unitRaised _ n ha => exact unique_unitRaised ha n
  | symbol _ => exact unique_symbol
  | one => exact unique_one
  | unitParenthesized _ hu => exact unique_unitParenthesized hu

/-- A list of tokens has one derivation at most. -/
theorem yield_injective {s : Symbol} {d e : Derivation names s} (h : d.yield = e.yield) :
    d = e := by
  have h' : d.yield ++ [] = e.yield ++ [] := by rw [h]
  exact (d.unique e [] [] s.ends_nil s.ends_nil h').1

end Derivation
end UnitCalculator.Grammar
