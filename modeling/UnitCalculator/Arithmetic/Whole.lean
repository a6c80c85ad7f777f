/-!
Integers of 128 bits. Results outside of the range are refused, never wrapped.
-/

set_option autoImplicit false

namespace UnitCalculator.Whole

def least : Int := -Int.pow 2 127

def greatest : Int := Int.pow 2 127 - 1

def InRange (n : Int) : Prop := least ≤ n ∧ n ≤ greatest

instance (n : Int) : Decidable (InRange n) := inferInstanceAs (Decidable (_ ∧ _))

def checked (n : Int) : Option Int := if InRange n then some n else none

theorem checked_eq_some_iff {m n : Int} : checked m = some n ↔ InRange m ∧ m = n := by
  simp [checked]

/-- A base beyond one leaves the range by the 128th power, and the powers of the others depend
on the parity alone, so no large power is ever computed. -/
def pow? (base : Int) (n : Nat) : Option Int :=
  if base.natAbs ≤ 1 then some (if n = 0 then 1 else if n % 2 = 0 then base * base else base)
  else if 128 ≤ n then none
  else checked (base.pow n)

end UnitCalculator.Whole
