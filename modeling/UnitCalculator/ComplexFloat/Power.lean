import UnitCalculator.ComplexFloat

/-!
Powers of floats and of complex numbers. No result means an overflow or a power of zero that
does not exist.
-/

set_option autoImplicit false

namespace UnitCalculator

namespace ComplexFloat

def squaring (r p : ComplexFloat) : List Bool → ComplexFloat
  | [] => r
  | b :: bs => squaring (if b then r.mul p else r) (p.mul p) bs

def binaryDigits : Nat → Nat → List Bool
  | 0, _ => []
  | k + 1, n => if n = 0 then [] else (n % 2 = 1) :: binaryDigits k (n / 2)

def powNat (z : ComplexFloat) (n : Nat) : ComplexFloat := squaring one z (binaryDigits n n)

def powInt? (z : ComplexFloat) (n : Int) : Option ComplexFloat :=
  if 0 < n then some (powNat z n.toNat) else one.div? (powNat z n.natAbs)

def powPolar? (z w : ComplexFloat) : Option ComplexFloat :=
  if w.isZero then some one
  else if z.isZero then if !(w.im == 0) || w.re < 0 then none else some ⟨0, 0⟩
  else
    let length := hypot z.re z.im
    let angle := Float.atan2 z.im z.re
    let r := Float.pow length w.re
    let t := angle * w.re
    let r := if w.im == 0 then r else r / (angle * w.im).exp
    let t := if w.im == 0 then t else t + w.im * length.log
    if t.isInf then none else some ⟨r * t.cos, r * t.sin⟩

/-- Whole exponents of at most a hundred go by squaring. -/
def pow? (z w : ComplexFloat) : Option ComplexFloat :=
  let p :=
    if w.im == 0 && isWhole w.re && w.re.abs ≤ 100 then powInt? z (truncate w.re)
    else powPolar? z w
  p.filter fun r => !r.isInfinite

end ComplexFloat

inductive FloatPower where
  | real (x : Float)
  | complex (z : ComplexFloat)

def powAtInfinity (x y : Float) : Float :=
  if x.abs == 1 then 1
  else if (0 < y) == (1 < x.abs) then infinity
  else 0

def powOfInfinity (x y : Float) : Float :=
  if 0 < y then if isOdd y then x else infinity
  else if isOdd y then copySign 0 x else 0

def powFinite? (x y : Float) : Option Float :=
  let r := if x == 1 then 1 else Float.pow x y
  if r.isInf then none else some r

def powFloat? (x y : Float) : Option FloatPower :=
  if y == 0 then some (.real 1)
  else if x.isNaN then some (.real x)
  else if y.isNaN then some (.real (if x == 1 then 1 else y))
  else if y.isInf then some (.real (powAtInfinity x y))
  else if x.isInf then some (.real (powOfInfinity x y))
  else if x == 0 then
    if y < 0 then none else some (.real (if isOdd y then x else 0))
  else if x < 0 then
    if isWhole y then
      (powFinite? (-x) y).map fun r => .real (if isOdd y then -r else r)
    else (ComplexFloat.pow? (.ofReal x) (.ofReal y)).map .complex
  else (powFinite? x y).map .real

end UnitCalculator
