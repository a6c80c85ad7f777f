import UnitCalculator.Proofs.Arithmetic.Range
import UnitCalculator.Proofs.Grammar.Soundness
import UnitCalculator.Proofs.Lexeme.LongestMatch
import UnitCalculator.Proofs.Term.Writing
import UnitCalculator.Proofs.Units.Dimension
import UnitCalculator.Scan

/-!
The terms that text is read as. No identifier is a number and no literal is below zero, so units in
brackets are written ones; integers are in range, every operator stands where it has a meaning, and
assignments stand at the top of a line only.
-/

set_option autoImplicit false

namespace UnitCalculator

/-- What a token of a text is: identifiers begin with a letter and literals have no sign. -/
def Token.OfText : Token → Prop
  | .ident s => s ≠ dimensionless
  | .int n => 0 ≤ n ∧ Whole.InRange n
  | _ => True

theorem Lexeme.letter_of_identifier {k : Text.CharClasses} {c : Char} {t : List Char}
    (h : (first k c t).1.group = .identifier) : k.letter c = true := by
  have hmem := ((isLongest_first k c t).mem_iff .identifier).2 h.symm
  obtain ⟨d, y, htext, hd, -⟩ := Group.mem_identifier.1 hmem
  obtain ⟨rfl, -⟩ := List.cons.inj htext
  exact hd

theorem letter_one (k : Text.CharClasses) : k.letter '1' = false := by
  rw [k.letter_ascii '1' (by decide)]
  decide

theorem Literal.integer_ofText {radix : Nat} {body literal : List Char} {t : Token}
    (h : integer radix body literal = .ok t) : t.OfText := by
  unfold integer at h
  split at h
  · cases h
  · next ds _ =>
    simp only at h
    split at h
    · next hn =>
      cases h
      have hl : Whole.least ≤ 0 := by decide
      exact ⟨Int.natCast_nonneg _, by omega, hn⟩
    · cases h

theorem Literal.float_eq {literal : List Char} {t : Token} (h : float literal = .ok t) :
    ∃ x, t = .float x := by
  simp only [float] at h
  split at h
  · cases h
  · split at h
    · cases h
      exact ⟨_, rfl⟩
    · cases h

theorem ok_of_map_some {ε α : Type} {x : Except ε α} {a : α}
    (h : some <$> x = .ok (some a)) : x = .ok a := by
  cases x with
  | error e => cases h
  | ok b =>
    cases h
    rfl

theorem Lexeme.token?_ofText {k : Text.CharClasses} {c : Char} {t : List Char} {u : Token}
    (h : (first k c t).1.token? = .ok (some u)) : u.OfText := by
  unfold token? at h
  split at h
  · exact Literal.integer_ofText (ok_of_map_some h)
  · obtain ⟨x, rfl⟩ := Literal.float_eq (ok_of_map_some h)
    trivial
  · exact Literal.integer_ofText (ok_of_map_some h)
  · exact Literal.integer_ofText (ok_of_map_some h)
  · cases h
    trivial
  · next hg =>
    have hl := letter_of_identifier hg
    cases h
    intro hs
    have hc : c = '1' := by
      have := congrArg String.toList hs
      simp [first, dimensionless] at this
      exact this.1
    rw [hc, letter_one] at hl
    cases hl
  · cases h
  · cases h

theorem exists_first_of_mem_lexemes {k : Text.CharClasses} {text : List Char} {x : Lexeme}
    (h : x ∈ lexemes k text) : ∃ c t, x = (Lexeme.first k c t).1 := by
  fun_induction lexemes k text with
  | case1 => cases h
  | case2 c t ih =>
    obtain rfl | h := List.mem_cons.1 h
    · exact ⟨c, t, rfl⟩
    · exact ih h

theorem tokensOf_ofText {xs : List Lexeme} {ts : List Token}
    (hx : ∀ x ∈ xs, ∀ t, x.token? = .ok (some t) → t.OfText) (h : tokensOf xs = .ok ts) :
    ∀ t ∈ ts, t.OfText := by
  induction xs generalizing ts with
  | nil =>
    cases h
    exact fun _ ht => nomatch ht
  | cons x xs ih =>
    have hx' : ∀ y ∈ xs, ∀ t, y.token? = .ok (some t) → t.OfText :=
      fun y hy => hx y (List.mem_cons_of_mem x hy)
    rw [tokensOf] at h
    split at h
    · cases h
    · exact ih hx' h
    · next u hu =>
      cases hr : tokensOf xs with
      | error e =>
        rw [hr] at h
        cases h
      | ok us =>
        rw [hr] at h
        cases h
        intro t ht
        obtain rfl | ht := List.mem_cons.1 ht
        · exact hx x List.mem_cons_self _ hu
        · exact ih hx' hr t ht

theorem tokenize_ofText {k : Text.CharClasses} {text : List Char} {ts : List Token}
    (h : tokenize k text = .ok ts) : ∀ t ∈ ts, t.OfText := by
  refine tokensOf_ofText (fun x hx t ht => ?_) h
  obtain ⟨c, r, rfl⟩ := exists_first_of_mem_lexemes hx
  exact Lexeme.token?_ofText ht

theorem tokenize_nil (k : Text.CharClasses) : tokenize k [] = .ok [] := by
  rw [tokenize, lexemes_nil, tokensOf]

theorem tokenize_cons {k : Text.CharClasses} {c : Char} {t r : List Char} {x : Lexeme}
    {u : Token} {us : List Token} (hf : Lexeme.first k c t = (x, r))
    (hx : x.token? = .ok (some u)) (hr : tokenize k r = .ok us) :
    tokenize k (c :: t) = .ok (u :: us) := by
  rw [tokenize, lexemes_cons, hf, tokensOf, hx]
  rw [tokenize] at hr
  simp [hr]

/-! Terms -/

/-- What stands behind a literal: no unit, or one in brackets as it is written. -/
inductive LiteralUnit : Term → Prop where
  | absent : LiteralUnit .absent
  | bracketed {u : Term} : Units.Written u → LiteralUnit (.bracketed u)

/-- Terms without assignments. -/
inductive Expression : Term → Prop where
  | number {a : Number} {u : Term} : LiteralUnit u → Expression (.number a u)
  | signed {o : Operator} {t : Term} : Expression t → Expression (.signed o t)
  | binary {o : Operator} {l r : Term} :
      o ≠ .equals → Expression l → Expression r → Expression (.binary o l r)
  | name (s : String) : Expression (.name s)
  | call {s : String} {ts : List Term} : (∀ t ∈ ts, Expression t) → Expression (.call s ts)
  | command (s : String) (ts : List Token) : Expression (.command s ts)

inductive IsLine : Term → Prop where
  | value {t : Term} : Expression t → IsLine t
  | assignment {l r : Term} : Expression l → Expression r → IsLine (.binary .equals l r)

def Operator.IsInfix (o : Operator) : Prop :=
  Grammar.isAdditive o = true ∨ Grammar.isMultiplicative o = true ∨ o = .caret

/-- Expressions as they are read: integers in range, units and tokens that can be written out,
operators that there are, and functions and commands by their names. -/
inductive Readable (names : Names) : Term → Prop where
  | number {a : Number} {u : Term} :
      a.Bounded → LiteralUnit u → u.Short → Readable names (.number a u)
  | signed {o : Operator} {t : Term} :
      Grammar.isAdditive o = true → Readable names t → Readable names (.signed o t)
  | binary {o : Operator} {l r : Term} :
      o.IsInfix → Readable names l → Readable names r → Readable names (.binary o l r)
  | name (s : String) : Readable names (.name s)
  | call {s : String} {ts : List Term} : names.isFunction s = true → (∀ t ∈ ts, Readable names t) →
      Readable names (.call s ts)
  | command {s : String} {ts : List Token} : names.isCommand s = true →
      (∀ t ∈ ts, t.obstacle = none) → Readable names (.command s ts)

inductive ReadableLine (names : Names) : Term → Prop where
  | value {t : Term} : Readable names t → ReadableLine names t
  | assignment {l r : Term} :
      Readable names l → Readable names r → ReadableLine names (.binary .equals l r)

theorem Operator.IsInfix.ne_equals {o : Operator} (h : o.IsInfix) : o ≠ .equals := by
  rintro rfl
  obtain h | h | h := h <;> cases h

theorem Readable.expression {names : Names} {t : Term} (h : Readable names t) : Expression t := by
  induction h with
  | number _ hu _ => exact .number hu
  | signed _ _ ih => exact .signed ih
  | binary ho _ _ ihl ihr => exact .binary ho.ne_equals ihl ihr
  | name s => exact .name s
  | call _ _ ih => exact .call ih
  | command _ _ => exact .command _ _

theorem obstacle_of_bounded {a : Number} (h : a.Bounded) : a.obstacle = none := by
  cases a with
  | int n => exact intObstacle_of_inRange (Number.bounded_int.1 h)
  | real x | complex z => rfl

theorem Token.OfText.obstacle {t : Token} (h : t.OfText) : t.obstacle = none := by
  cases t with
  | int n => exact intObstacle_of_inRange h.2
  | _ => rfl

theorem Readable.short {names : Names} {t : Term} (h : Readable names t) : t.Short := by
  induction h with
  | number ha _ hu => exact .number (obstacle_of_bounded ha) hu
  | signed _ _ ih => exact .signed ih
  | binary _ _ _ ihl ihr => exact .binary ihl ihr
  | name s => exact .name s
  | call _ _ ih => exact .call ih
  | command _ hts => exact .command hts

theorem ReadableLine.short {names : Names} {t : Term} (h : ReadableLine names t) : t.Short := by
  cases h with
  | value h => exact h.short
  | assignment hl hr => exact .binary hl.short hr.short

theorem ReadableLine.isLine {names : Names} {t : Term} (h : ReadableLine names t) : IsLine t := by
  cases h with
  | value h => exact .value h.expression
  | assignment hl hr => exact .assignment hl.expression hr.expression

theorem Names.of_kind_function {names : Names} {s : String} (h : names.kind s = .function) :
    names.isFunction s = true := by
  unfold kind at h
  split at h
  · cases h
  · split at h
    · assumption
    · split at h <;> cases h

theorem Names.of_kind_command {names : Names} {s : String} (h : names.kind s = .command) :
    names.isCommand s = true := by
  unfold kind at h
  split at h
  · cases h
  · split at h
    · cases h
    · split at h
      · assumption
      · cases h

namespace Grammar

def Shaped (names : Names) : (s : Symbol) → Meaning s → Prop
  | .assign, t => ReadableLine names t
  | .expr, t | .product, t | .unary, t | .power, t | .primary, t => Readable names t
  | .additions, f | .factors, f => ∀ l, Readable names l → Readable names (f l)
  | .arguments, ts | .moreArguments, ts => ∀ t ∈ ts, Readable names t
  | .brackets, u => LiteralUnit u ∧ u.Short
  | .unit, u | .unitTerm, u | .unitAtom, u => Units.Written u ∧ u.Short
  | .unitFactors, f => ∀ u, Units.Written u ∧ u.Short → Units.Written (f u) ∧ (f u).Short

theorem bounded_of_literal? {t : Token} {a : Number} (h : literal? t = some a) (ht : t.OfText) :
    a.Bounded := by
  cases t with
  | int n =>
    cases h
    exact Number.bounded_int.2 ht.2
  | float x =>
    cases h
    exact Number.bounded_real x
  | _ => cases h

theorem Suffixes.bounded_value {names : Names} (x : Suffixes names) {a : Number}
    (h : a.Bounded) : (x.value a).Bounded := by
  cases x with
  | none => exact h
  | scaled p f hp => exact Number.bounded_scale f a
  | _ => exact Number.bounded_complex _

theorem written_of_isUnitOperator {o : Operator} (h : isUnitOperator o = true) {u v : Term}
    (hu : Units.Written u) (hv : Units.Written v) : Units.Written (.binary o u v) := by
  cases o with
  | times => exact .times hu hv
  | slash => exact .slash hu hv
  | _ => cases h

theorem Derivation.shaped {names : Names} {s : Symbol} (d : Derivation names s)
    (h : ∀ t ∈ d.yield, t.OfText) : Shaped names s d.tree := by
  induction d with
  | value e ihe => exact .value (ihe h)
  | assignment l e ihl ihe =>
    simp only [yield, List.forall_mem_append, List.forall_mem_cons] at h
    exact .assignment (ihl h.1) (ihe h.2.2)
  | sum p a ihp iha =>
    simp only [yield, List.forall_mem_append] at h
    exact iha h.2 _ (ihp h.1)
  | noAddition => exact fun _ hl => hl
  | addition o ho p a ihp iha =>
    simp only [yield, List.forall_mem_append, List.forall_mem_cons] at h
    exact fun _ hl => iha h.2.2 _ (.binary (.inl ho) hl (ihp h.2.1))
  | product u f ihu ihf =>
    simp only [yield, List.forall_mem_append] at h
    exact ihf h.2 _ (ihu h.1)
  | noFactor => exact fun _ hl => hl
  | factor o ho u f ihu ihf =>
    simp only [yield, List.forall_mem_append, List.forall_mem_cons] at h
    exact fun _ hl => ihf h.2.2 _ (.binary (.inr (.inl ho)) hl (ihu h.2.1))
  | signed o ho u ihu =>
    simp only [yield, List.forall_mem_cons] at h
    exact .signed ho (ihu h.2)
  | unsigned p ihp => exact ihp h
  | plain p ihp => exact ihp h
  | raised p u ihp ihu =>
    simp only [yield, List.forall_mem_append, List.forall_mem_cons] at h
    exact .binary (.inr (.inr rfl)) (ihp h.1) (ihu h.2.2)
  | number t a ht x b ihb =>
    simp only [yield, List.forall_mem_append, List.forall_mem_cons] at h
    have hb := ihb h.2.2
    exact .number (x.bounded_value (bounded_of_literal? ht h.1)) hb.1 hb.2
  | parenthesized e ihe =>
    simp only [yield, List.forall_mem_append, List.forall_mem_cons] at h
    exact ihe h.2.1
  | name s hs => exact .name s
  | call f hf a iha =>
    simp only [yield, List.forall_mem_cons] at h
    exact .call (Names.of_kind_function hf) (iha h.2)
  | command c hc ts hts =>
    simp only [yield, List.forall_mem_append, List.forall_mem_cons] at h
    refine .command (Names.of_kind_command hc) fun t ht => ?_
    exact (h.2.2.1 t (List.mem_of_mem_filter ht)).obstacle
  | noArguments => exact fun _ ht => nomatch ht
  | someArguments e m ihe ihm =>
    simp only [yield, List.forall_mem_append, List.forall_mem_cons] at h
    exact List.forall_mem_cons.2 ⟨ihe h.2.1.1, ihm h.2.1.2⟩
  | lastArgument => exact fun _ ht => nomatch ht
  | nextArgument e m ihe ihm =>
    simp only [yield, List.forall_mem_append, List.forall_mem_cons] at h
    exact List.forall_mem_cons.2 ⟨ihe h.2.1, ihm h.2.2⟩
  | noUnit => exact ⟨.absent, .absent⟩
  | bracketed u ihu =>
    simp only [yield, List.forall_mem_append, List.forall_mem_cons] at h
    exact ⟨.bracketed (ihu h.2.1).1, .bracketed (ihu h.2.1).2⟩
  | unit u f ihu ihf =>
    simp only [yield, List.forall_mem_append] at h
    exact ihf h.2 _ (ihu h.1)
  | noUnitFactor => exact fun _ hu => hu
  | unitFactor o ho u f ihu ihf =>
    simp only [yield, List.forall_mem_append, List.forall_mem_cons] at h
    have hu := ihu h.2.1
    exact fun _ hl => ihf h.2.2 _ ⟨written_of_isUnitOperator ho hl.1 hu.1, .binary hl.2 hu.2⟩
  | unitPlain a iha => exact iha h
  | unitRaised a n iha =>
    simp only [yield, List.forall_mem_append, List.forall_mem_cons] at h
    have ha := iha h.1
    have hn : (Term.int n).Short := .number (Token.OfText.obstacle (t := .int n) h.2.2.1) .absent
    exact ⟨.power h.2.2.1.1 ha.1, .binary ha.2 hn⟩
  | symbol s => exact ⟨.symbol (h _ List.mem_cons_self), .name s⟩
  | one => exact ⟨.one, .number (intObstacle_of_inRange (by decide)) .absent⟩
  | unitParenthesized u ihu =>
    simp only [yield, List.forall_mem_append, List.forall_mem_cons] at h
    exact ihu h.2.1

end Grammar

theorem readableLine_of_parse {k : Text.CharClasses} {names : Names} {limit : Int}
    {line : List Char} {ts : List Token} {t : Term} (hts : tokenize k line = .ok ts)
    (hp : parse names limit ts = .ok t) : ReadableLine names t := by
  obtain ⟨d, rfl, rfl⟩ := Grammar.exists_derivation_of_parse hp
  exact d.shaped (tokenize_ofText hts)

/-- The term is what some line of text is read as. -/
def IsParsed (k : Text.CharClasses) (t : Term) : Prop :=
  ∃ names limit line ts, tokenize k line = .ok ts ∧ parse names limit ts = .ok t

theorem IsParsed.short {k : Text.CharClasses} {t : Term} (h : IsParsed k t) : t.Short := by
  obtain ⟨names, limit, line, ts, hts, hp⟩ := h
  exact (readableLine_of_parse hts hp).short

theorem IsParsed.isLine {k : Text.CharClasses} {t : Term} (h : IsParsed k t) : IsLine t := by
  obtain ⟨names, limit, line, ts, hts, hp⟩ := h
  exact (readableLine_of_parse hts hp).isLine

end UnitCalculator
