import UnitCalculator.Units.Error
import UnitCalculator.Units.Table

/-!
Units as they are written: powers become products, and compound symbols become their bases, with
a factor for the number that carries the unit.
-/

set_option autoImplicit false

namespace UnitCalculator.Units

def maxExponent : Int := 64

def repeated (base : Term) : Nat → Term → Term
  | 0, p => p
  | k + 1, p => repeated base k (.binary .times base p)

/-- A power as a product; `scale` is the power that the exponents around it make already. -/
def expandExponents (scale : Int) : Term → Except UnitError Term
  | .binary .caret u (.number (.int n) _) =>
    if maxExponent < n * scale then .error (.exponentTooLarge (n * scale))
    else if n = 0 then .ok (.int 1)
    else do
      let base ← expandExponents (n * scale) u
      .ok (repeated base (n - 1).toNat base)
  | .binary .caret _ e => .error (.malformedExponent e)
  | .binary op u v => do
    let u ← expandExponents scale u
    let v ← expandExponents scale v
    .ok (.binary op u v)
  | u => .ok u

structure Replacement where
  factor : Float
  unit : Term
  /-- Nothing was replaced. -/
  atomic : Bool

def divideFactors (a b : Float) : Except UnitError Float :=
  if b == 0 then .error .scaleVanished else .ok (a / b)

def replaceCompounds : Term → Except UnitError Replacement
  | .name s =>
    match compound? s with
    | some c => .ok ⟨c.factor, .name c.base, false⟩
    | none => .ok ⟨1, .name s, true⟩
  | .number (.int n) u => .ok ⟨1, .number (.int n) u, true⟩
  | .binary .times u v => do
    let a ← replaceCompounds u
    let b ← replaceCompounds v
    .ok ⟨a.factor * b.factor, .binary .times a.unit b.unit, a.atomic && b.atomic⟩
  | .binary .slash u v => do
    let a ← replaceCompounds u
    let b ← replaceCompounds v
    let factor ← divideFactors a.factor b.factor
    .ok ⟨factor, .binary .slash a.unit b.unit, a.atomic && b.atomic⟩
  | u => .error (.malformed u)

/-- More than any chain of compound symbols needs. -/
def maxPasses : Nat := 16

def toAtomic : Nat → Option Float → Term → Except UnitError (Option Float × Term)
  | 0, _, u => .error (.endless u)
  | k + 1, factor, u => do
    let r ← replaceCompounds u
    if r.atomic then .ok (factor, r.unit)
    else toAtomic k (some (factor.getD 1 * r.factor)) r.unit

end UnitCalculator.Units
