import UnitCalculator.Arithmetic.Hypot

/-!
Complex numbers in Cartesian form, with float parts.
-/

set_option autoImplicit false

namespace UnitCalculator

structure ComplexFloat where
  re : Float
  im : Float
  deriving DecidableEq

namespace ComplexFloat

def ofReal (x : Float) : ComplexFloat := ⟨x, 0⟩

def one : ComplexFloat := ofReal 1

def add (z w : ComplexFloat) : ComplexFloat := ⟨z.re + w.re, z.im + w.im⟩

def sub (z w : ComplexFloat) : ComplexFloat := ⟨z.re - w.re, z.im - w.im⟩

def neg (z : ComplexFloat) : ComplexFloat := ⟨-z.re, -z.im⟩

def mul (z w : ComplexFloat) : ComplexFloat :=
  ⟨z.re * w.re - z.im * w.im, z.re * w.im + z.im * w.re⟩

def equal (z w : ComplexFloat) : Bool := z.re == w.re && z.im == w.im

def isZero (z : ComplexFloat) : Bool := z.equal ⟨0, 0⟩

def isInfinite (z : ComplexFloat) : Bool := z.re.isInf || z.im.isInf

def isFinite (z : ComplexFloat) : Bool := z.re.isFinite && z.im.isFinite

/-- Both sides are scaled by the ratio of the divisor's parts, the smaller to the larger, so that
no square is formed. -/
def div? (z w : ComplexFloat) : Option ComplexFloat :=
  if w.im.abs ≤ w.re.abs then
    if w.re == 0 then none
    else
      let ratio := w.im / w.re
      let scale := w.re + w.im * ratio
      some ⟨(z.re + z.im * ratio) / scale, (z.im - z.re * ratio) / scale⟩
  else if w.re.abs ≤ w.im.abs then
    let ratio := w.re / w.im
    let scale := w.re * ratio + w.im
    some ⟨(z.re * ratio + z.im) / scale, (z.im * ratio - z.re) / scale⟩
  else some ⟨notANumber, notANumber⟩

def abs? (z : ComplexFloat) : Option Float :=
  let r := hypot z.re z.im
  if r.isInf && z.isFinite then none else some r

end ComplexFloat
end UnitCalculator
