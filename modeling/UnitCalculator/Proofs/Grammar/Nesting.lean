import UnitCalculator.Proofs.Grammar.Soundness
import Mathlib.Tactic.Ring

/-!
How high a line's term gets. The levels that a product has taken are free again behind it, and a sum
takes them once more on top of it: so the limit itself is no bound. With `n` levels a line's term has
up to `n * (n + 1)` operators above one another.
-/

set_option autoImplicit false

namespace UnitCalculator

/-- Operators, signs and calls on the longest way down a term, units left out. -/
def Term.nesting : Term → Nat
  | signed _ t => t.nesting + 1
  | binary _ l r => max l.nesting r.nesting + 1
  | call _ ts => nestings ts + 1
  | _ => 0
where
  nestings : List Term → Nat
  | [] => 0
  | t :: ts => max t.nesting (nestings ts)

namespace Grammar

open Term

variable {names : Names}

/-- How high the meaning of a phrase gets that goes in no further than `n` levels. A chain adds an
operator for each level, as its operands are no higher than what it is built on. -/
def Nests (n : Nat) : (s : Symbol) → Meaning s → Prop
  | .assign, t => t.nesting ≤ n * (n + 1)
  | .expr, t => t.nesting < n * (n + 1)
  | .additions, f | .factors, f =>
    ∀ (lhs : Term) (b : Nat), lhs.nesting ≤ b → n * (n + 1) ≤ b → (f lhs).nesting ≤ b + n
  | .product, t => t.nesting ≤ n * (n + 1) + n + 1
  | .unary, t | .power, t => t.nesting ≤ n * (n + 1) + 1
  | .primary, t => t.nesting ≤ max 1 (n * (n + 1))
  | .arguments, ts | .moreArguments, ts => nesting.nestings ts < max 1 (n * (n + 1))
  | .brackets, _ | .unit, _ | .unitFactors, _ | .unitTerm, _ | .unitAtom, _ => True

theorem nests_succ (n : Nat) : (n + 1) * (n + 1 + 1) = n * (n + 1) + 2 * n + 2 := by ring

theorem nests_chain {n b : Nat} {o : Operator} {lhs t : Term} {f : Term → Term}
    (hf : ∀ (l : Term) (b : Nat), l.nesting ≤ b → n * (n + 1) ≤ b → (f l).nesting ≤ b + n)
    (hl : lhs.nesting ≤ b) (ht : t.nesting ≤ b) (hb : n * (n + 1) ≤ b) :
    (f (.binary o lhs t)).nesting ≤ b + (n + 1) := by
  have hn : (Term.binary o lhs t).nesting ≤ b + 1 := by
    simp only [nesting]
    omega
  have h := hf _ (b + 1) hn (by omega)
  omega

theorem nests_cons {n : Nat} {t : Term} {ts : List Term} (ht : t.nesting < n * (n + 1))
    (hts : nesting.nestings ts < max 1 (n * (n + 1))) :
    nesting.nestings (t :: ts) < max 1 (n * (n + 1)) := by
  simp only [nesting.nestings]
  omega

namespace Derivation

def Nested {s : Symbol} (d : Derivation names s) : Prop := ∀ n, d.levels ≤ n → Nests n s d.tree

theorem nested_assignment {l r : Derivation names .expr} (hl : l.Nested) (hr : r.Nested) :
    (assignment l r).Nested := by
  intro n hn
  rw [levels] at hn
  have hl : l.tree.nesting < n * (n + 1) := hl n (by omega)
  have hr : r.tree.nesting < n * (n + 1) := hr n (by omega)
  show max l.tree.nesting r.tree.nesting + 1 ≤ n * (n + 1)
  omega

theorem nested_sum {p : Derivation names .product} {a : Derivation names .additions}
    (hp : p.Nested) (ha : a.Nested) : (sum p a).Nested := by
  intro n hn
  rw [levels] at hn
  obtain ⟨n, rfl⟩ : ∃ m, n = m + 1 := ⟨n - 1, by omega⟩
  have h := ha n (by omega) p.tree (n * (n + 1) + n + 1) (hp n (by omega)) (by omega)
  show (a.tree p.tree).nesting < (n + 1) * (n + 1 + 1)
  rw [nests_succ]
  omega

theorem nested_addition {o : Operator} {ho : isAdditive o = true}
    {p : Derivation names .product} {a : Derivation names .additions} (hp : p.Nested)
    (ha : a.Nested) : (addition o ho p a).Nested := by
  intro n hn lhs b hl hb
  rw [levels] at hn
  obtain ⟨n, rfl⟩ : ∃ m, n = m + 1 := ⟨n - 1, by omega⟩
  rw [nests_succ] at hb
  have hp : p.tree.nesting ≤ n * (n + 1) + n + 1 := hp n (by omega)
  exact nests_chain (ha n (by omega)) hl (by omega) (by omega)

theorem nested_product {u : Derivation names .unary} {f : Derivation names .factors}
    (hu : u.Nested) (hf : f.Nested) : (product u f).Nested := by
  intro n hn
  rw [levels] at hn
  have h := hf n (by omega) u.tree (n * (n + 1) + 1) (hu n (by omega)) (by omega)
  show (f.tree u.tree).nesting ≤ n * (n + 1) + n + 1
  omega

theorem nested_factor {o : Operator} {ho : isMultiplicative o = true}
    {u : Derivation names .unary} {f : Derivation names .factors} (hu : u.Nested)
    (hf : f.Nested) : (factor o ho u f).Nested := by
  intro n hn lhs b hl hb
  rw [levels] at hn
  obtain ⟨n, rfl⟩ : ∃ m, n = m + 1 := ⟨n - 1, by omega⟩
  rw [nests_succ] at hb
  have hu : u.tree.nesting ≤ n * (n + 1) + 1 := hu n (by omega)
  exact nests_chain (hf n (by omega)) hl (by omega) (by omega)

theorem nested_signed {o : Operator} {ho : isAdditive o = true} {u : Derivation names .unary}
    (hu : u.Nested) : (signed o ho u).Nested := by
  intro n hn
  rw [levels] at hn
  obtain ⟨n, rfl⟩ : ∃ m, n = m + 1 := ⟨n - 1, by omega⟩
  have hu : u.tree.nesting ≤ n * (n + 1) + 1 := hu n (by omega)
  show u.tree.nesting + 1 ≤ (n + 1) * (n + 1 + 1) + 1
  rw [nests_succ]
  omega

theorem nested_plain {p : Derivation names .primary} (hp : p.Nested) : (plain p).Nested := by
  intro n hn
  have hp : p.tree.nesting ≤ max 1 (n * (n + 1)) := hp n hn
  show p.tree.nesting ≤ n * (n + 1) + 1
  omega

theorem nested_raised {p : Derivation names .primary} {u : Derivation names .unary}
    (hp : p.Nested) (hu : u.Nested) : (raised p u).Nested := by
  intro n hn
  rw [levels] at hn
  obtain ⟨n, rfl⟩ : ∃ m, n = m + 1 := ⟨n - 1, by omega⟩
  have hp : p.tree.nesting ≤ max 1 ((n + 1) * (n + 1 + 1)) := hp (n + 1) (by omega)
  have hu : u.tree.nesting ≤ n * (n + 1) + 1 := hu n (by omega)
  show max p.tree.nesting u.tree.nesting + 1 ≤ (n + 1) * (n + 1 + 1) + 1
  rw [nests_succ] at hp ⊢
  omega

theorem nested_parenthesized {e : Derivation names .expr} (he : e.Nested) :
    (parenthesized e).Nested := by
  intro n hn
  have he : e.tree.nesting < n * (n + 1) := he n hn
  show e.tree.nesting ≤ max 1 (n * (n + 1))
  omega

theorem nested {s : Symbol} (d : Derivation names s) : d.Nested := by
  induction d with
  | value _ he => exact fun n hn => Nat.le_of_lt (he n hn)
  | assignment _ _ hl hr => exact nested_assignment hl hr
  | sum _ _ hp ha => exact nested_sum hp ha
  | addition _ _ _ _ hp ha => exact nested_addition hp ha
  | product _ _ hu hf => exact nested_product hu hf
  | factor _ _ _ _ hu hf => exact nested_factor hu hf
  | noAddition | noFactor => exact fun n _ _ _ hl _ => Nat.le_add_right_of_le hl
  | signed _ _ _ hu => exact nested_signed hu
  | unsigned _ hp => exact hp
  | plain _ hp => exact nested_plain hp
  | raised _ _ hp hu => exact nested_raised hp hu
  | number | name | command => exact fun _ _ => Nat.zero_le _
  | parenthesized _ he => exact nested_parenthesized he
  | call _ _ _ ha => exact ha
  | noArguments | lastArgument => exact fun _ _ => Nat.le_max_left 1 _
  | someArguments _ _ he hm | nextArgument _ _ he hm =>
    intro n hn
    rw [levels] at hn
    exact nests_cons (he n (by omega)) (hm n (by omega))
  | noUnit | bracketed | unit | noUnitFactor | unitFactor | unitPlain | unitRaised | symbol | one
  | unitParenthesized => exact fun _ _ => trivial

/-! The highest lines -/

def literalOne : Derivation names .unary :=
  .unsigned (.plain (.number (.int 1) (.int 1) rfl .none .noUnit))

def timesOnes : Nat → Derivation names .factors
  | 0 => .noFactor
  | n + 1 => .factor .times rfl literalOne (timesOnes n)

def plusOnes : Nat → Derivation names .additions
  | 0 => .noAddition
  | n + 1 => .addition .plus rfl (.product literalOne .noFactor) (plusOnes n)

variable {f : String} (hf : names.kind f = .function)

/-- A call of the tower before, its power, a product on top of that and a sum on top of the product,
all as long as the levels allow: `f(f(f())^1*1+1)^1*1*1+1+1`. -/
def tower : Nat → Derivation names .expr
  | 0 => .sum (.product (.unsigned (.plain (.call f hf .noArguments))) .noFactor) .noAddition
  | n + 1 =>
    .sum (.product
      (.unsigned (.raised (.call f hf (.someArguments (tower n) .lastArgument)) literalOne))
      (timesOnes (n + 1))) (plusOnes (n + 1))

theorem levels_timesOnes (n : Nat) : (timesOnes n : Derivation names .factors).levels = n := by
  induction n with
  | zero => rfl
  | succ n ih =>
    simp only [timesOnes, levels, literalOne, ih]
    omega

theorem levels_plusOnes (n : Nat) : (plusOnes n : Derivation names .additions).levels = n := by
  induction n with
  | zero => rfl
  | succ n ih =>
    simp only [plusOnes, levels, literalOne, ih]
    omega

theorem levels_tower (n : Nat) : (tower hf n).levels = n + 1 := by
  induction n with
  | zero => rfl
  | succ n ih =>
    simp only [tower, levels, literalOne, ih, levels_timesOnes, levels_plusOnes]
    omega

theorem nesting_timesOnes (n : Nat) (t : Term) :
    ((timesOnes n : Derivation names .factors).tree t).nesting = t.nesting + n := by
  induction n generalizing t with
  | zero => rfl
  | succ n ih =>
    have h := ih (.binary .times t (.number (.int 1) .absent))
    simp only [nesting] at h
    exact h.trans (by omega)

theorem nesting_plusOnes (n : Nat) (t : Term) :
    ((plusOnes n : Derivation names .additions).tree t).nesting = t.nesting + n := by
  induction n generalizing t with
  | zero => rfl
  | succ n ih =>
    have h := ih (.binary .plus t (.number (.int 1) .absent))
    simp only [nesting] at h
    exact h.trans (by omega)

theorem nesting_tower (n : Nat) : (tower hf n).tree.nesting + 1 = (n + 1) * (n + 1 + 1) := by
  induction n with
  | zero => rfl
  | succ n ih =>
    let power := Term.binary .caret (.call f [(tower hf n).tree]) (.number (.int 1) .absent)
    let product := (timesOnes (n + 1) : Derivation names .factors).tree power
    have hp : product.nesting = power.nesting + (n + 1) := nesting_timesOnes (n + 1) power
    have hs : (tower hf (n + 1)).tree.nesting = product.nesting + (n + 1) :=
      nesting_plusOnes (n + 1) product
    have hb : power.nesting = (tower hf n).tree.nesting + 2 := by
      simp only [power, nesting, nesting.nestings]
      omega
    rw [nests_succ]
    omega

end Derivation

/-- A line's term has at most as many operators above one another as the limit, times one more; and
where the calculator has a function, there is a line whose term has as many. -/
theorem nesting_bounded (names : Names) (limit : Int) :
    (∀ x t, parse names limit x = .ok t → t.nesting ≤ limit.toNat * (limit.toNat + 1)) ∧
      ∀ f, names.kind f = .function → 0 < limit →
        ∃ x t, parse names limit x = .ok t ∧ t.nesting = limit.toNat * (limit.toNat + 1) := by
  constructor
  · intro x t h
    obtain ⟨d, -, rfl, hd⟩ := parse_eq_ok_iff_derivation.1 h
    exact d.nested limit.toNat hd
  · intro f hf hl
    obtain ⟨n, hn⟩ : ∃ n, limit.toNat = n + 1 := ⟨limit.toNat - 1, by omega⟩
    have hd : (Derivation.assignment (.tower hf n) (.tower hf n)).levels ≤ limit.toNat := by
      simp only [Derivation.levels, Derivation.levels_tower]
      omega
    refine ⟨_, _, parse_of_levels_le _ hd, ?_⟩
    rw [hn, ← Derivation.nesting_tower hf n]
    exact congrArg (· + 1) (Nat.max_self _)

theorem nesting_exceeds_limit :
    ∃ t, parse ⟨fun _ => false, fun _ => false, fun _ => false⟩ 3
        [.int 1, .op .times, .int 1, .op .times, .int 1, .op .plus, .int 1, .op .plus, .int 1] =
      .ok t ∧ 3 < t.nesting :=
  ⟨_, rfl, by decide⟩

end Grammar
end UnitCalculator
