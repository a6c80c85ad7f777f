import UnitCalculator.Term

/-!
A unit as one quotient of two products. Rewriting moves quotients out of products and out of the
sides of other quotients; a step rewrites every place once, from the leaves up.
-/

set_option autoImplicit false

namespace UnitCalculator.Units

def rewriteProduct : Term → Term → Term
  | .binary .slash a b, c => .binary .slash (.binary .times a c) b
  | a, .binary .slash b c => .binary .slash (.binary .times a b) c
  | a, b => .binary .times a b

def rewriteQuotient : Term → Term → Term
  | a, .binary .slash b c => .binary .slash (.binary .times a c) b
  | .binary .slash a b, c => .binary .slash a (.binary .times b c)
  | a, b => .binary .slash a b

def rewriteStep : Term → Term
  | .binary op u v =>
    match op with
    | .times => rewriteProduct (rewriteStep u) (rewriteStep v)
    | .slash => rewriteQuotient (rewriteStep u) (rewriteStep v)
    | op => .binary op (rewriteStep u) (rewriteStep v)
  | u => u

def isQuotient : Term → Bool
  | .binary .slash _ _ => true
  | _ => false

theorem eq_slash_of_isQuotient {u : Term} (h : isQuotient u = true) :
    ∃ a b, u = .binary .slash a b := by
  unfold isQuotient at h
  split at h
  · exact ⟨_, _, rfl⟩
  · cases h

def isReducible : Term → Bool
  | .binary op u v =>
    ((op == .times || op == .slash) && (isQuotient u || isQuotient v)) ||
      isReducible u || isReducible v
  | _ => false

def quotients : Term → Nat
  | .binary op u v => (if op = .slash then 1 else 0) + quotients u + quotients v
  | _ => 0

/-- The quotients that stand below products, counted once for each product above them. -/
def buried : Term → Nat
  | .binary op u v =>
    (if op = .times then quotients u + quotients v else 0) + buried u + buried v
  | _ => 0

@[simp] theorem quotients_rewriteProduct (u v : Term) :
    quotients (rewriteProduct u v) = quotients u + quotients v := by
  unfold rewriteProduct
  split <;> simp [quotients] <;> omega

theorem buried_rewriteProduct_le (u v : Term) :
    buried (rewriteProduct u v) ≤ quotients u + quotients v + buried u + buried v := by
  unfold rewriteProduct
  split <;> simp [quotients, buried] <;> omega

theorem buried_rewriteProduct_lt {u v : Term} (h : isQuotient u = true ∨ isQuotient v = true) :
    buried (rewriteProduct u v) < quotients u + quotients v + buried u + buried v := by
  unfold rewriteProduct
  split
  · simp [quotients, buried]
    omega
  · simp [quotients, buried]
    omega
  · next hu hv =>
    rcases h with h | h
    · obtain ⟨a, b, rfl⟩ := eq_slash_of_isQuotient h
      exact (hu a b rfl).elim
    · obtain ⟨a, b, rfl⟩ := eq_slash_of_isQuotient h
      exact (hv a b rfl).elim

theorem quotients_rewriteQuotient_le (u v : Term) :
    quotients (rewriteQuotient u v) ≤ 1 + quotients u + quotients v := by
  unfold rewriteQuotient
  split <;> simp [quotients] <;> omega

theorem quotients_rewriteQuotient_lt {u v : Term} (h : isQuotient u = true ∨ isQuotient v = true) :
    quotients (rewriteQuotient u v) < 1 + quotients u + quotients v := by
  unfold rewriteQuotient
  split
  · simp [quotients]
    omega
  · simp [quotients]
    omega
  · next hu hv =>
    rcases h with h | h
    · obtain ⟨a, b, rfl⟩ := eq_slash_of_isQuotient h
      exact (hu a b rfl).elim
    · obtain ⟨a, b, rfl⟩ := eq_slash_of_isQuotient h
      exact (hv a b rfl).elim

theorem rewriteQuotient_of_not {u v : Term} (hu : isQuotient u = false)
    (hv : isQuotient v = false) : rewriteQuotient u v = .binary .slash u v := by
  unfold rewriteQuotient
  split
  · simp [isQuotient] at hv
  · simp [isQuotient] at hu
  · rfl

@[simp] theorem isQuotient_rewriteQuotient (u v : Term) :
    isQuotient (rewriteQuotient u v) = true := by
  unfold rewriteQuotient
  split <;> rfl

theorem isQuotient_rewriteStep {u : Term} (h : isQuotient u = true) :
    isQuotient (rewriteStep u) = true := by
  obtain ⟨a, b, rfl⟩ := eq_slash_of_isQuotient h
  simp [rewriteStep]

/-- How the two measures of a term compare after a step: the number of quotients falls, or it
stays and what is buried does not rise. -/
def Eased (u' u : Term) : Prop :=
  quotients u' < quotients u ∨ quotients u' = quotients u ∧ buried u' ≤ buried u

def StrictlyEased (u' u : Term) : Prop :=
  quotients u' < quotients u ∨ quotients u' = quotients u ∧ buried u' < buried u

theorem eased_rewriteStep (u : Term) : Eased (rewriteStep u) u := by
  induction u with
  | binary op u v hu hv =>
    unfold Eased at hu hv ⊢
    cases op with
    | times =>
      have := buried_rewriteProduct_le (rewriteStep u) (rewriteStep v)
      simp only [rewriteStep, quotients_rewriteProduct, quotients, buried, reduceIte,
        reduceCtorEq]
      omega
    | slash =>
      have hq := quotients_rewriteQuotient_le (rewriteStep u) (rewriteStep v)
      simp only [rewriteStep, quotients, buried, reduceIte, reduceCtorEq]
      by_cases h : isQuotient (rewriteStep u) = true ∨ isQuotient (rewriteStep v) = true
      · have := quotients_rewriteQuotient_lt h
        omega
      · simp only [not_or, Bool.not_eq_true] at h
        rw [rewriteQuotient_of_not h.1 h.2]
        simp only [quotients, buried, reduceIte, reduceCtorEq]
        omega
    | _ =>
      simp only [rewriteStep, quotients, buried, reduceIte, reduceCtorEq]
      omega
  | _ => exact .inr ⟨rfl, Nat.le_refl _⟩

theorem strictlyEased_rewriteStep {u : Term} (h : isReducible u = true) :
    StrictlyEased (rewriteStep u) u := by
  induction u with
  | binary op u v hu hv =>
    have eu := eased_rewriteStep u
    have ev := eased_rewriteStep v
    have qu := isQuotient_rewriteStep (u := u)
    have qv := isQuotient_rewriteStep (u := v)
    unfold Eased at eu ev
    unfold StrictlyEased at hu hv ⊢
    simp only [isReducible, Bool.or_eq_true, Bool.and_eq_true, beq_iff_eq] at h
    cases op with
    | times =>
      have := buried_rewriteProduct_le (rewriteStep u) (rewriteStep v)
      simp only [rewriteStep, quotients_rewriteProduct, quotients, buried, reduceIte,
        reduceCtorEq]
      rcases h with (⟨_, h⟩ | h) | h
      · have := buried_rewriteProduct_lt (h.imp qu qv)
        omega
      · have := hu h
        omega
      · have := hv h
        omega
    | slash =>
      have hq := quotients_rewriteQuotient_le (rewriteStep u) (rewriteStep v)
      simp only [rewriteStep, quotients, buried, reduceIte, reduceCtorEq]
      by_cases hs : isQuotient (rewriteStep u) = true ∨ isQuotient (rewriteStep v) = true
      · have := quotients_rewriteQuotient_lt hs
        omega
      · rcases h with (⟨_, h⟩ | h) | h
        · exact absurd (h.imp qu qv) hs
        · have := hu h
          simp only [not_or, Bool.not_eq_true] at hs
          rw [rewriteQuotient_of_not hs.1 hs.2]
          simp only [quotients, buried, reduceIte, reduceCtorEq]
          omega
        · have := hv h
          simp only [not_or, Bool.not_eq_true] at hs
          rw [rewriteQuotient_of_not hs.1 hs.2]
          simp only [quotients, buried, reduceIte, reduceCtorEq]
          omega
    | _ =>
      simp only [rewriteStep, quotients, buried, reduceIte, reduceCtorEq]
      rcases h with (⟨h, _⟩ | h) | h
      · simp at h
      · have := hu h
        omega
      · have := hv h
        omega
  | _ => cases h

def reduce (u : Term) : Term :=
  if isReducible u then reduce (rewriteStep u) else u
termination_by (quotients u, buried u)
decreasing_by
  rcases strictlyEased_rewriteStep ‹_› with h | ⟨h, h'⟩
  · exact Prod.Lex.left _ _ h
  · rw [h]
    exact Prod.Lex.right _ h'

end UnitCalculator.Units
