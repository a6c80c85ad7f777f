import UnitCalculator.Units.Algebra
import UnitCalculator.Units.Quotient
import UnitCalculator.Units.Written

/-!
Canonical units. The factors of a written unit are counted; exponents of canonical units that are
combined are added or multiplied as they are. Common factors cancel, and what is left is either
no unit at all or a fraction with its symbols in order.
-/

set_option autoImplicit false

namespace UnitCalculator

structure Quantity where
  value : Number
  unit : Option Fraction
  deriving DecidableEq

namespace Units

def countInto (x : Exponents) : Term → Except UnitError Exponents
  | .name s => .ok (x.add s 1)
  | .number (.int _) _ => .ok (x.add dimensionless 1)
  | .binary .times u v => do
    let x ← countInto x u
    countInto x v
  | u => .error (.malformed u)

def counts : Term → Except UnitError (Exponents × Exponents)
  | .binary .slash u v => do
    let x ← countInto [] u
    let y ← countInto [] v
    .ok (x, y)
  | u => do
    let x ← countInto [] u
    .ok (x, [])

def toFraction (u : Term) : Except UnitError Fraction := do
  let (x, y) ← counts u
  .ok ⟨x.less y, y.less x⟩

structure Scaled where
  factor : Option Float
  numerator : Exponents
  denominator : Exponents

def ofWritten (u : Term) : Except UnitError Scaled := do
  let u ← expandExponents 1 u
  let (factor, u) ← toAtomic maxPasses none u
  let (x, y) ← counts (reduce u)
  .ok ⟨factor, x, y⟩

def containsFraction : Term → Bool
  | .fraction _ => true
  | .binary _ u v => containsFraction u || containsFraction v
  | _ => false

def joinFactors (f : Float → Float → Float) : Option Float → Option Float → Option Float
  | none, none => none
  | a, b => some (f (a.getD 1) (b.getD 1))

def powFactor (a : Option Float) (n : Int) : Except UnitError (Option Float) :=
  match a with
  | none => .ok none
  | some a =>
    match powFloat? a (Float.ofInt n) with
    | some (.real r) => .ok (some r)
    | _ => .error .scalePower

def joinQuotient (a b : Option Float) : Except UnitError (Option Float) := do
  let _ ← divideFactors (a.getD 1) (b.getD 1)
  .ok (joinFactors (· / ·) a b)

/-- Terms without a canonical part are taken as written. -/
def collect : Term → Except UnitError Scaled
  | .bracketed u => collect u
  | .fraction f => .ok ⟨none, .ofPairs f.numerator, .ofPairs f.denominator⟩
  | .binary op u v =>
    if !(containsFraction u || containsFraction v) then ofWritten (.binary op u v)
    else
      match op, v with
      | .caret, .number (.int n) _ => do
        let a ← collect u
        let factor ← powFactor a.factor n
        let x := if n < 0 then a.denominator else a.numerator
        let y := if n < 0 then a.numerator else a.denominator
        .ok ⟨factor, x.scale n.natAbs, y.scale n.natAbs⟩
      | .caret, e => .error (.malformedExponent e)
      | .times, v => do
        let a ← collect u
        let b ← collect v
        .ok ⟨joinFactors (· * ·) a.factor b.factor, a.numerator.sum b.numerator,
          a.denominator.sum b.denominator⟩
      | .slash, v => do
        let a ← collect u
        let b ← collect v
        let factor ← joinQuotient a.factor b.factor
        .ok ⟨factor, a.numerator.sum b.denominator, a.denominator.sum b.numerator⟩
      | op, v => .error (.malformed (.binary op u v))
  | u => ofWritten u

def cancelled (x y : Exponents) : Option Fraction :=
  let n := (x.less y).drop dimensionless
  let d := (y.less x).drop dimensionless
  if n.isEmpty && d.isEmpty then none else some ⟨n, d⟩

/-- A compound symbol scales the number: six kilometres are six thousand metres. -/
def canonicalize (a : Number) (unit : Term) : Except UnitError Quantity :=
  match unit with
  | .absent => .ok ⟨a, none⟩
  | unit => do
    let s ← collect unit
    .ok ⟨match s.factor with
      | some f => a.scale f
      | none => a, cancelled s.numerator s.denominator⟩

def sameQuantity (a b : Number × Term) : Except UnitError Bool := do
  let p ← canonicalize a.1 a.2
  let q ← canonicalize b.1 b.2
  .ok (p.value.equals q.value && p.unit == q.unit)

end Units

def Quantity.toTerm (q : Quantity) : Term :=
  .number q.value (match q.unit with
    | none => .absent
    | some f => .fraction f)

end UnitCalculator
