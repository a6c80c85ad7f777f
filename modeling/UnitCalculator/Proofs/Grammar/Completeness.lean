import UnitCalculator.Proofs.Grammar.Derivation

/-!
Whatever has a derivation is read. With as many levels left as the derivation goes in, the reader of
each kind of phrase takes exactly the tokens of the phrase and gives the term that it stands for.
-/

set_option autoImplicit false

namespace UnitCalculator.Grammar

open Reader

variable {α β : Type} {names : Names}

/-- In front of `x` and then `r`, the reader takes `x` and gives `a`. -/
def Gives (p : Reader α) (x r : List Token) (a : α) : Prop :=
  ∀ k, result p ⟨k, x ++ r⟩ = .ok (a, ⟨k + x.length, r⟩)

namespace Gives

theorem pure (a : α) (r : List Token) : Gives (Pure.pure a) [] r a := fun _ => rfl

theorem bind {p : Reader α} {f : α → Reader β} {x y r : List Token} {a : α} {b : β}
    (hp : Gives p x (y ++ r) a) (hf : Gives (f a) y r b) : Gives (p >>= f) (x ++ y) r b := by
  intro k
  rw [result_bind, List.append_assoc, hp k]
  simpa [Except.bind, Nat.add_assoc] using hf (k + x.length)

theorem look {p : Reader α} {f : α → Reader β} {x r : List Token} {a : α} {b : β}
    (hp : Gives p [] (x ++ r) a) (hf : Gives (f a) x r b) : Gives (p >>= f) x r b := hp.bind hf

theorem next {p : Reader α} {f : α → Reader β} {t : Token} {x r : List Token} {a : α} {b : β}
    (hp : Gives p [t] (x ++ r) a) (hf : Gives (f a) x r b) : Gives (p >>= f) (t :: x) r b :=
  hp.bind hf

theorem last {p : Reader α} {f : α → Reader β} {x r : List Token} {a : α} {b : β}
    (hp : Gives p x r a) (hf : Gives (f a) [] r b) : Gives (p >>= f) x r b := by
  have h := bind (y := []) hp hf
  rwa [List.append_nil] at h

theorem visit (v : Rule) (r : List Token) : Gives (visit v) [] r () := fun _ => rfl

theorem skip (t : Token) (r : List Token) : Gives (skip 1) [t] r () := fun _ => rfl

theorem take {f : Token → Option α} {t : Token} {a : α} (h : f t = some a) (r : List Token) :
    Gives (take? f) [t] r (some a) := by
  intro k
  simp [result_take?, h]

theorem take_none {f : Token → Option α} {r : List Token} (h : ∀ t ∈ r.head?, f t = none) :
    Gives (take? f) [] r none := by
  intro k
  cases r with
  | nil => rfl
  | cons t r => simp [result_take?, h t rfl]

theorem operator {f : Operator → Bool} {o : Operator} (h : f o = true) (r : List Token) :
    Gives (operator? f) [.op o] r (some o) := take (by simp [h]) r

theorem operator_none {f : Operator → Bool} {r : List Token}
    (h : ∀ o, r.head? = some (.op o) → f o = false) : Gives (operator? f) [] r none := by
  refine take_none fun t ht => ?_
  cases t with
  | op o => simp [h o ht]
  | _ => rfl

theorem accepts (o : Operator) (r : List Token) : Gives (accepts o) [.op o] r true := by
  intro k
  simp [result_accepts]

theorem refuses {o : Operator} {r : List Token} (h : r.head? ≠ some (.op o)) :
    Gives (Reader.accepts o) [] r false := by
  refine look (operator_none ?_) (pure _ r)
  intro p hp
  by_cases ho : p = o
  · rw [ho] at hp
    exact absurd hp h
  · simp [ho]

theorem expect (o : Operator) (e : Expected) (r : List Token) :
    Gives (expect o e) [.op o] r () := by
  intro k
  simp [result_expect]

theorem close (o : Operator) (e : Expected) (a : α) (r : List Token) :
    Gives (do Reader.expect o e; return a) [.op o] r a :=
  next (x := []) (expect o e r) (pure a r)

end Gives

/-- What the reader of a kind of phrase does in front of `x` and then `r`. -/
def Reads (names : Names) (inner : Inner) (x r : List Token) : (s : Symbol) → Meaning s → Prop
  | .assign, t => Gives (assign inner) x r t
  | .expr, t => Gives (expr inner) x r t
  | .additions, f => ∀ lhs, Gives (sumAfter inner lhs) x r (f lhs)
  | .product, t => Gives (product names inner) x r t
  | .factors, f => ∀ lhs, Gives (productAfter inner lhs) x r (f lhs)
  | .unary, t => Gives (unary names inner) x r t
  | .power, t => Gives (power names inner) x r t
  | .primary, t => Gives (primary names inner) x r t
  | .arguments, ts => ∀ f, Gives (arguments inner f) x r ts
  | .moreArguments, ts => ∀ n, x.length ≤ n → Gives (moreArguments inner n) x r ts
  | .brackets, u => Gives (bracketedUnit inner) x r u
  | .unit, u => Gives (unit inner) x r u
  | .unitFactors, f => ∀ lhs, Gives (unitAfter inner lhs) x r (f lhs)
  | .unitTerm, u => Gives (unitTerm inner) x r u
  | .unitAtom, u => Gives (unitAtom inner) x r u

/-- The phrase is read wherever there are levels enough and nothing continues it. -/
def Complete (limit : Int) {s : Symbol} (d : Derivation names s) : Prop :=
  ∀ (n : Nat) (r : List Token), d.levels ≤ n → s.Ends r →
    Reads names (within names limit n) d.yield r s d.tree

namespace Symbol.Ends

variable {s : Symbol} {r : List Token} {o : Operator}

theorem head?_ne (h : s.Ends r) (ho : s.bound < grip (.op o)) : r.head? ≠ some (.op o) := by
  intro hr
  have hg := h (.op o) hr
  omega

theorem not_operator (h : s.Ends r) {f : Operator → Bool}
    (hf : ∀ {o}, f o = true → s.bound < grip (.op o)) (hr : r.head? = some (.op o)) :
    f o = false := by
  cases ho : f o with
  | false => rfl
  | true => exact absurd hr (h.head?_ne (hf ho))

end Symbol.Ends

/-! The names behind a literal -/

theorem suffix?_imaginary {i : String} (hi : isImaginaryName i = true) :
    suffix? names (.ident i) = none := by
  obtain ⟨hp, hg⟩ := isImaginaryName_not_prefix hi
  simp [suffix?, hp, hg]

theorem suffix?_glued {s : String} {f : Float} (hs : prefixedImaginary? s = some f)
    (hc : names.isConstant s = false) : suffix? names (.ident s) = some (.imaginary f) := by
  have hp := prefixedImaginary?_not_prefix hs
  simp [suffix?, hp, hs, hc]

theorem suffix?_scaled {p : String} {f : Float} (hp : prefixName? p = some f) :
    suffix? names (.ident p) = some (.scaled f) := by
  simp [suffix?, hp]

theorem imaginary?_of {i : String} (hi : isImaginaryName i = true) :
    imaginary? (.ident i) = some () := by
  simp [imaginary?, hi]

/-- Behind a literal and its names, neither a prefix nor an imaginary unit is taken. -/
theorem gives_no_suffix {r : List Token} (h : ∀ s, r.head? ≠ some (.ident s)) :
    Gives (take? (suffix? names)) [] r none ∧ Gives (take? imaginary?) [] r none := by
  constructor
  · refine .take_none fun t ht => ?_
    cases t with
    | ident s => exact absurd ht (h s)
    | _ => rfl
  · refine .take_none fun t ht => ?_
    cases t with
    | ident s => exact absurd ht (h s)
    | _ => rfl

theorem gives_number {inner : Inner} {b r : List Token} {u : Term} (x : Suffixes names)
    (hb : Gives (bracketedUnit inner) b r u) (h : ∀ s, (b ++ r).head? ≠ some (.ident s))
    (t : Token) (a : Number) :
    Gives (number names inner a) (t :: (x.tokens ++ b)) r (.number (x.value a) u) := by
  refine (Gives.visit _ _).look ((Gives.skip t _).next ?_)
  obtain ⟨hs, hi⟩ : Gives (take? (suffix? names)) [] (b ++ r) none ∧ _ := gives_no_suffix h
  have hu : ∀ v, Gives (do return Term.number v (← bracketedUnit inner)) b r (Term.number v u) :=
    fun v => hb.last (.pure (Term.number v u) r)
  cases x with
  | none => exact hs.look (hi.look (hu _))
  | imaginary i h =>
    have h₁ : Gives (take? (suffix? names)) [] (.ident i :: (b ++ r)) none := by
      refine .take_none fun t ht => ?_
      cases ht
      exact suffix?_imaginary h
    have h₂ := Gives.take (imaginary?_of h) (b ++ r)
    exact h₁.look (h₂.next (hu _))
  | scaled p f h =>
    exact (Gives.take (suffix?_scaled h) _).next (hi.look (hu _))
  | scaledImaginary p i f h h' =>
    have h₂ := Gives.take (imaginary?_of h') (b ++ r)
    exact (Gives.take (suffix?_scaled h) _).next (h₂.next (hu _))
  | glued s f h hc =>
    exact (Gives.take (suffix?_glued h hc) _).next ((Gives.pure _ _).look (hu _))

/-! Operands by their first token -/

theorem gives_literal {inner : Inner} {t : Token} {a : Number} {x r : List Token} {u : Term}
    (ht : literal? t = some a) (h : Gives (number names inner a) (t :: x) r u) :
    Gives (primary names inner) (t :: x) r u := by
  refine (Gives.visit _ _).look ?_
  have hp : Gives peek [] (t :: x ++ r) (some t) := fun _ => rfl
  cases t with
  | int n | float y =>
    cases ht
    exact hp.look h
  | _ => cases ht

def namedAs (inner : Inner) (s : String) : NameKind → Reader Term
  | .constant | .var => return .name s
  | .function => return .call s (← arguments inner s)
  | .command => return .command s (← commandArguments s)

theorem named_eq (names : Names) (inner : Inner) (s : String) : named names inner s = (do
    Reader.skip 1
    Reader.visit (.identifier s)
    namedAs inner s (names.kind s)) := by
  unfold named Names.kind
  cases names.isConstant s
  · cases names.isFunction s
    · cases names.isCommand s
      · rfl
      · rfl
    · rfl
  · rfl

theorem gives_named {inner : Inner} {s : String} {c : NameKind} {x r : List Token} {t : Term}
    (hc : names.kind s = c) (h : Gives (namedAs inner s c) x r t) :
    Gives (primary names inner) (.ident s :: x) r t := by
  have hp : Gives peek [] (.ident s :: x ++ r) (some (.ident s)) := fun _ => rfl
  have hn : Gives (named names inner s) (.ident s :: x) r t := by
    rw [named_eq, hc]
    exact (Gives.skip _ _).next ((Gives.visit _ _).look h)
  exact (Gives.visit _ _).look (hp.look hn)

namespace Derivation

variable {limit : Int}

/-! Whole lines -/

theorem complete_value {e : Derivation names .expr} (he : Complete limit e) :
    Complete limit (value e) := by
  intro n r hn hr
  have h₁ := he n r hn (hr.weaken (by decide))
  refine (Gives.visit _ _).look (Gives.last h₁ ?_)
  exact (Gives.refuses (hr.head?_ne (by decide))).look (.pure _ r)

theorem complete_assignment {l e : Derivation names .expr} (hl : Complete limit l)
    (he : Complete limit e) : Complete limit (assignment l e) := by
  intro n r hn hr
  rw [levels] at hn
  have h₁ := hl n (.op .equals :: e.yield ++ r) (by omega)
    (Symbol.ends_cons.2 (by decide))
  have h₂ := he n r (by omega) (hr.weaken (by decide))
  refine (Gives.visit _ _).look (Gives.bind h₁ ?_)
  exact (Gives.accepts _ _).next (Gives.last h₂ (.pure _ r))

/-! Sums -/

theorem complete_sum {p : Derivation names .product} {a : Derivation names .additions}
    (hp : Complete limit p) (ha : Complete limit a) : Complete limit (sum p a) := by
  intro n r hn hr
  rw [levels] at hn
  obtain ⟨n, rfl⟩ : ∃ m, n = m + 1 := ⟨n - 1, by omega⟩
  have h₁ := hp n (a.yield ++ r) (by omega) (ends_additions a hr)
  have h₂ := ha n r (by omega) hr
  exact (Gives.visit _ _).look (Gives.bind h₁ (h₂ p.tree))

theorem complete_noAddition : Complete limit (noAddition : Derivation names .additions) := by
  intro n r _ hr lhs
  have h : Gives (operator? isAdditive) [] r none :=
    .operator_none fun _ => hr.not_operator additions_bound_lt
  exact Gives.look (x := []) h (.pure lhs r)

theorem complete_addition {o : Operator} {ho : isAdditive o = true}
    {p : Derivation names .product} {a : Derivation names .additions} (hp : Complete limit p)
    (ha : Complete limit a) : Complete limit (addition o ho p a) := by
  intro n r hn hr lhs
  rw [levels] at hn
  obtain ⟨n, rfl⟩ : ∃ m, n = m + 1 := ⟨n - 1, by omega⟩
  have h₁ := hp n (a.yield ++ r) (by omega) (ends_additions a hr)
  have h₂ := ha n r (by omega) hr
  exact (Gives.operator ho _).next (Gives.bind h₁ (h₂ (.binary o lhs p.tree)))

/-! Products -/

theorem complete_product {u : Derivation names .unary} {f : Derivation names .factors}
    (hu : Complete limit u) (hf : Complete limit f) : Complete limit (product u f) := by
  intro n r hn hr
  rw [levels] at hn
  have h₁ := hu n (f.yield ++ r) (by omega) (ends_factors f hr)
  have h₂ := hf n r (by omega) hr
  exact (Gives.visit _ _).look (Gives.bind h₁ (h₂ u.tree))

theorem complete_noFactor : Complete limit (noFactor : Derivation names .factors) := by
  intro n r _ hr lhs
  have h : Gives (operator? isMultiplicative) [] r none :=
    .operator_none fun _ => hr.not_operator factors_bound_lt
  exact Gives.look (x := []) h (.pure lhs r)

theorem complete_factor {o : Operator} {ho : isMultiplicative o = true}
    {u : Derivation names .unary} {f : Derivation names .factors} (hu : Complete limit u)
    (hf : Complete limit f) : Complete limit (factor o ho u f) := by
  intro n r hn hr lhs
  rw [levels] at hn
  obtain ⟨n, rfl⟩ : ∃ m, n = m + 1 := ⟨n - 1, by omega⟩
  have h₁ := hu n (f.yield ++ r) (by omega) (ends_factors f hr)
  have h₂ := hf n r (by omega) hr
  exact (Gives.operator ho _).next (Gives.bind h₁ (h₂ (.binary o lhs u.tree)))

/-! Signs and powers -/

theorem complete_signed {o : Operator} {ho : isAdditive o = true} {u : Derivation names .unary}
    (hu : Complete limit u) : Complete limit (signed o ho u) := by
  intro n r hn hr
  rw [levels] at hn
  obtain ⟨n, rfl⟩ : ∃ m, n = m + 1 := ⟨n - 1, by omega⟩
  have h₁ := hu n r (by omega) hr
  exact (Gives.visit _ _).look ((Gives.operator ho _).next (Gives.last h₁ (.pure _ r)))

theorem complete_unsigned {p : Derivation names .power} (hp : Complete limit p) :
    Complete limit (unsigned p) := by
  intro n r hn hr
  have hs : ∀ o, (p.yield ++ r).head? = some (.op o) → isAdditive o = false := by
    intro o ho
    cases ha : isAdditive o with
    | false => rfl
    | true => exact absurd ho (power_not_additive p ha)
  exact (Gives.visit _ _).look ((Gives.operator_none hs).look (hp n r hn hr))

theorem complete_plain {p : Derivation names .primary} (hp : Complete limit p) :
    Complete limit (plain p) := by
  intro n r hn hr
  have h₁ := hp n r hn (hr.weaken (by decide))
  refine (Gives.visit _ _).look (Gives.last h₁ ?_)
  exact (Gives.refuses (hr.head?_ne (by decide))).look (.pure _ r)

theorem complete_raised {p : Derivation names .primary} {u : Derivation names .unary}
    (hp : Complete limit p) (hu : Complete limit u) : Complete limit (raised p u) := by
  intro n r hn hr
  rw [levels] at hn
  obtain ⟨n, rfl⟩ : ∃ m, n = m + 1 := ⟨n - 1, by omega⟩
  have h₁ := hp (n + 1) (.op .caret :: u.yield ++ r) (by omega)
    (Symbol.ends_cons.2 (by decide))
  have h₂ := hu n r (by omega) hr
  refine (Gives.visit _ _).look (Gives.bind h₁ ?_)
  exact (Gives.accepts _ _).next (Gives.last h₂ (.pure _ r))

/-! Operands -/

theorem complete_number {t : Token} {a : Number} {ht : literal? t = some a} {x : Suffixes names}
    {b : Derivation names .brackets} (hb : Complete limit b) :
    Complete limit (number t a ht x b) := by
  intro n r hn hr
  have h₁ := hb n r hn hr
  exact gives_literal ht (gives_number x h₁ (ends_brackets b hr) t a)

theorem complete_parenthesized {e : Derivation names .expr} (he : Complete limit e) :
    Complete limit (parenthesized e) := by
  intro n r hn hr
  have h₁ := he n (.op .closeParen :: r) hn
    (Symbol.ends_cons.2 (by decide))
  have h₂ : Gives peek [] ((parenthesized e).yield ++ r) (some (.op .openParen)) := fun _ => rfl
  refine (Gives.visit _ _).look (h₂.look ((Gives.skip _ _).next (Gives.bind h₁ ?_)))
  exact (Gives.expect _ _ r).next (.pure _ r)

theorem complete_name {s : String} {hs : names.kind s = .constant ∨ names.kind s = .var} :
    Complete limit (name s hs) := by
  intro n r _ _
  obtain hs | hs := hs
  · exact gives_named hs (.pure _ r)
  · exact gives_named hs (.pure _ r)

theorem complete_call {f : String} {hf : names.kind f = .function}
    {a : Derivation names .arguments} (ha : Complete limit a) : Complete limit (call f hf a) := by
  intro n r hn hr
  have h₁ := ha n r hn (hr.weaken (by decide)) f
  exact gives_named hf (Gives.last h₁ (.pure _ r))

theorem beforeClose_eq {ts r : List Token} (h : Token.op .closeParen ∉ ts) :
    beforeClose (ts ++ .op .closeParen :: r) = some (ts.filter (· ≠ .op .comma), r) := by
  induction ts with
  | nil => simp [beforeClose]
  | cons t ts ih =>
    rw [List.mem_cons, not_or] at h
    obtain ⟨ht, hts⟩ := h
    by_cases hc : t = .op .comma
    · simp [beforeClose, hc, ih hts]
    · simp [beforeClose, hc, Ne.symm ht, ih hts]

theorem complete_command {c : String} {hc : names.kind c = .command} {ts : List Token}
    {hts : Token.op .closeParen ∉ ts} : Complete limit (command c hc ts hts) := by
  intro n r _ _
  have h₁ : Gives (commandArguments c) (.op .openParen :: (ts ++ [.op .closeParen])) r
      (ts.filter (· ≠ .op .comma)) := by
    refine (Gives.expect _ _ _).next ?_
    intro k
    simp only [result, List.append_assoc, List.singleton_append, beforeClose_eq hts]
    simp
    omega
  exact gives_named hc (Gives.last h₁ (.pure _ r))

/-! Arguments -/

theorem complete_noArguments : Complete limit (noArguments : Derivation names .arguments) := by
  intro n r _ _ f
  exact (Gives.expect _ _ _).next ((Gives.accepts _ r).next (.pure _ r))

theorem complete_someArguments {e : Derivation names .expr}
    {m : Derivation names .moreArguments} (he : Complete limit e) (hm : Complete limit m) :
    Complete limit (someArguments e m) := by
  intro n r hn hr f
  rw [levels] at hn
  have hc : Symbol.moreArguments.Ends ([.op .closeParen] ++ r) := Symbol.ends_cons.2 (by decide)
  have he' := he n (m.yield ++ ([.op .closeParen] ++ r)) (by omega)
    (ends_moreArguments m hc)
  have hm' := hm n ([.op .closeParen] ++ r) (by omega) hc
    (m.yield ++ [Token.op .closeParen] ++ r).length (by simp)
  rw [← List.append_assoc] at he'
  have h₁ : Gives (accepts .closeParen) []
      (e.yield ++ (m.yield ++ [.op .closeParen]) ++ r) false := by
    obtain ⟨t, l, hy, ht⟩ := expr_ne_closeParen e
    refine .refuses ?_
    rw [hy]
    simpa using ht
  have h₂ : Gives remaining [] (m.yield ++ [.op .closeParen] ++ r)
      (m.yield ++ [Token.op .closeParen] ++ r).length := fun _ => rfl
  have h₃ := Gives.close .closeParen (.functionClose f) (e.tree :: m.tree) r
  rw [yield, List.append_assoc e.yield]
  exact (Gives.expect _ _ _).next (h₁.look (Gives.bind he' (h₂.look (Gives.bind hm' h₃))))

theorem complete_lastArgument :
    Complete limit (lastArgument : Derivation names .moreArguments) := by
  intro n r _ hr k _
  cases k with
  | zero => exact .pure _ r
  | succ k =>
    have h : Gives (accepts .comma) [] r false := .refuses (hr.head?_ne (by decide))
    exact Gives.look (x := []) h (.pure _ r)

theorem complete_nextArgument {e : Derivation names .expr}
    {m : Derivation names .moreArguments} (he : Complete limit e) (hm : Complete limit m) :
    Complete limit (nextArgument e m) := by
  intro n r hn hr k hk
  rw [levels] at hn
  simp only [yield, List.length_append, List.length_cons] at hk
  obtain ⟨k, rfl⟩ : ∃ m, k = m + 1 := ⟨k - 1, by omega⟩
  have h₁ := he n (m.yield ++ r) (by omega) (ends_moreArguments m hr)
  have h₂ := hm n r (by omega) hr k (by omega)
  exact (Gives.accepts _ _).next (Gives.bind h₁ (h₂.last (.pure _ r)))

/-! Units -/

theorem complete_noUnit : Complete limit (noUnit : Derivation names .brackets) := by
  intro n r _ hr
  have h : Gives (accepts .openBracket) [] r false := .refuses (hr.head?_ne (by decide))
  exact Gives.look (x := []) h (.pure _ r)

theorem complete_bracketed {u : Derivation names .unit} (hu : Complete limit u) :
    Complete limit (bracketed u) := by
  intro n r hn _
  have h₁ := hu n ([.op .closeBracket] ++ r) hn
    (Symbol.ends_cons.2 (by decide))
  have h₂ := Gives.close .closeBracket .closeBracket (Term.bracketed u.tree) r
  exact (Gives.accepts _ _).next (Gives.bind h₁ h₂)

theorem complete_unit {u : Derivation names .unitTerm} {f : Derivation names .unitFactors}
    (hu : Complete limit u) (hf : Complete limit f) : Complete limit (unit u f) := by
  intro n r hn hr
  rw [levels] at hn
  obtain ⟨n, rfl⟩ : ∃ m, n = m + 1 := ⟨n - 1, by omega⟩
  have h₁ := hu n (f.yield ++ r) (by omega) (ends_unitFactors f hr)
  have h₂ := hf n r (by omega) hr
  exact (Gives.visit _ _).look (Gives.bind h₁ (h₂ u.tree))

theorem complete_noUnitFactor :
    Complete limit (noUnitFactor : Derivation names .unitFactors) := by
  intro n r _ hr lhs
  have h : Gives (operator? isUnitOperator) [] r none :=
    .operator_none fun _ => hr.not_operator unitFactors_bound_lt
  exact Gives.look (x := []) h (.pure lhs r)

theorem complete_unitFactor {o : Operator} {ho : isUnitOperator o = true}
    {u : Derivation names .unitTerm} {f : Derivation names .unitFactors} (hu : Complete limit u)
    (hf : Complete limit f) : Complete limit (unitFactor o ho u f) := by
  intro n r hn hr lhs
  rw [levels] at hn
  obtain ⟨n, rfl⟩ : ∃ m, n = m + 1 := ⟨n - 1, by omega⟩
  have h₁ := hu n (f.yield ++ r) (by omega) (ends_unitFactors f hr)
  have h₂ := hf n r (by omega) hr
  exact (Gives.operator ho _).next (Gives.bind h₁ (h₂ (.binary o lhs u.tree)))

theorem complete_unitPlain {a : Derivation names .unitAtom} (ha : Complete limit a) :
    Complete limit (unitPlain a) := by
  intro n r hn hr
  have h₁ := ha n r hn (hr.weaken (by decide))
  exact Gives.last h₁ ((Gives.refuses (hr.head?_ne (by decide))).look (.pure _ r))

theorem complete_unitRaised {a : Derivation names .unitAtom} (ha : Complete limit a) (k : Int) :
    Complete limit (unitRaised a k) := by
  intro n r hn _
  have h₁ := ha n ([.op .caret, .int k] ++ r) hn
    (Symbol.ends_cons.2 (by decide))
  refine Gives.bind h₁ ((Gives.accepts _ _).next ?_)
  refine Gives.next (a := some k) (fun _ => rfl) ?_
  exact .pure _ r

theorem complete_symbol {s : String} :
    Complete limit (symbol s : Derivation names .unitAtom) := by
  intro n r _ _
  have h : Gives (take? symbol?) [.ident s] r (some (.name s)) :=
    .take (f := symbol?) rfl r
  exact h.next (.pure _ r)

theorem complete_one : Complete limit (one : Derivation names .unitAtom) := by
  intro n r _ _
  have h : Gives (take? symbol?) [.int 1] r (some (.int 1)) :=
    .take (f := symbol?) rfl r
  exact h.next (.pure _ r)

theorem complete_unitParenthesized {u : Derivation names .unit} (hu : Complete limit u) :
    Complete limit (unitParenthesized u) := by
  intro n r hn _
  have h₁ := hu n ([.op .closeParen] ++ r) hn
    (Symbol.ends_cons.2 (by decide))
  have h₂ : Gives (take? symbol?) [] ((unitParenthesized u).yield ++ r) none := by
    refine .take_none fun t ht => ?_
    cases ht
    rfl
  have h₃ := Gives.close .closeParen .closeUnitParen u.tree r
  exact h₂.look ((Gives.accepts _ _).next (Gives.bind h₁ h₃))

theorem complete (limit : Int) {s : Symbol} (d : Derivation names s) : Complete limit d := by
  induction d with
  | value _ h => exact complete_value h
  | assignment _ _ hl he => exact complete_assignment hl he
  | sum _ _ hp ha => exact complete_sum hp ha
  | noAddition => exact complete_noAddition
  | addition _ _ _ _ hp ha => exact complete_addition hp ha
  | product _ _ hu hf => exact complete_product hu hf
  | noFactor => exact complete_noFactor
  | factor _ _ _ _ hu hf => exact complete_factor hu hf
  | signed _ _ _ hu => exact complete_signed hu
  | unsigned _ hp => exact complete_unsigned hp
  | plain _ hp => exact complete_plain hp
  | raised _ _ hp hu => exact complete_raised hp hu
  | number _ _ _ _ _ hb => exact complete_number hb
  | parenthesized _ he => exact complete_parenthesized he
  | name _ _ => exact complete_name
  | call _ _ _ ha => exact complete_call ha
  | command _ _ _ _ => exact complete_command
  | noArguments => exact complete_noArguments
  | someArguments _ _ he hm => exact complete_someArguments he hm
  | lastArgument => exact complete_lastArgument
  | nextArgument _ _ he hm => exact complete_nextArgument he hm
  | noUnit => exact complete_noUnit
  | bracketed _ hu => exact complete_bracketed hu
  | unit _ _ hu hf => exact complete_unit hu hf
  | noUnitFactor => exact complete_noUnitFactor
  | unitFactor _ _ _ _ hu hf => exact complete_unitFactor hu hf
  | unitPlain _ ha => exact complete_unitPlain ha
  | unitRaised _ k ha => exact complete_unitRaised ha k
  | symbol _ => exact complete_symbol
  | one => exact complete_one
  | unitParenthesized _ hu => exact complete_unitParenthesized hu

end Derivation

def whole (t : Term) : Reader Term := fun c =>
  match c.rest with
  | [] => ⟨[], .ok (t, c)⟩
  | u :: _ => ⟨[], .error (.leftOver u c.position)⟩

theorem line_eq (names : Names) (limit : Int) :
    line names limit = assign (within names limit limit.toNat) >>= whole := rfl

theorem parse_eq_ok_iff {limit : Int} {x : List Token} {t : Term} :
    parse names limit x = .ok t ↔
      ∃ k, result (assign (within names limit limit.toNat)) ⟨0, x⟩ = .ok (t, ⟨k, []⟩) := by
  have hp : parse names limit x = (result (line names limit) ⟨0, x⟩).map (·.1) := rfl
  rw [hp, line_eq, result_bind]
  cases result (assign (within names limit limit.toNat)) ⟨0, x⟩ with
  | error e =>
    constructor
    · intro h
      cases h
    · intro ⟨k, h⟩
      cases h
  | ok p =>
    obtain ⟨u, k, y⟩ := p
    cases y with
    | nil =>
      constructor
      · intro h
        cases h
        exact ⟨k, rfl⟩
      · intro ⟨k, h⟩
        cases h
        rfl
    | cons v y =>
      constructor
      · intro h
        cases h
      · intro ⟨k, h⟩
        cases h

theorem parse_of_levels_le (d : Derivation names .assign) {limit : Int}
    (h : d.levels ≤ limit.toNat) : parse names limit d.yield = .ok d.tree := by
  have hd := d.complete limit limit.toNat [] h Symbol.assign.ends_nil 0
  rw [List.append_nil] at hd
  exact parse_eq_ok_iff.2 ⟨_, hd⟩

/-- How many tokens a phrase has at least beyond its levels. -/
def Symbol.spare : Symbol → Nat
  | .product | .unary | .power | .primary | .arguments | .unitTerm | .unitAtom => 1
  | _ => 0

theorem Derivation.levels_add_spare_le {s : Symbol} (d : Derivation names s) :
    d.levels + s.spare ≤ d.yield.length := by
  induction d with
  | _ =>
    simp only [levels, yield, Symbol.spare, List.length_append, List.length_cons,
      List.length_nil] at *
    omega

theorem parse_yield (d : Derivation names .assign) {limit : Int}
    (h : (d.yield.length : Int) < limit) : parse names limit d.yield = .ok d.tree := by
  have hl := d.levels_add_spare_le
  exact parse_of_levels_le d (by omega)

end UnitCalculator.Grammar
