import UnitCalculator.Arithmetic.Sign

/-!
The length of a vector, without overflow in between. One step of Newton's method corrects the
square root, the rounding error being computed from differences of near values.
-/

set_option autoImplicit false

namespace UnitCalculator

def correctedRoot (ax ay : Float) : Float :=
  let h := (ax * ax + ay * ay).sqrt
  if h ≤ 2 * ay then
    let d := h - ay
    let t₁ := ax * (2 * d - ax)
    let t₂ := (d - 2 * (ax - ay)) * d
    h - (t₁ + t₂) / (2 * h)
  else
    let d := h - ax
    let t₁ := 2 * d * (ax - 2 * ay)
    let t₂ := (4 * d - ay) * ay + d * d
    h - (t₁ + t₂) / (2 * h)

/-- Two to the power -600, by which large legs are scaled down and small ones up. -/
def legScale : Float := Float.ofBits 0x1a70000000000000

/-- Two to the power -54: a leg that small against the other does not show. -/
def legRatio : Float := Float.ofBits 0x3c90000000000000

/-- Two to the powers 511 and -459, the bounds within which squares are safe. -/
def largeLeg : Float := Float.ofBits 0x5fe0000000000000

def smallLeg : Float := Float.ofBits 0x2340000000000000

def hypot (x y : Float) : Float :=
  if x.isInf || y.isInf then infinity
  else if x.isNaN || y.isNaN then notANumber
  else
    let ax := if x.abs < y.abs then y.abs else x.abs
    let ay := if x.abs < y.abs then x.abs else y.abs
    if largeLeg < ax then
      if ay ≤ ax * legRatio then ax + ay
      else correctedRoot (ax * legScale) (ay * legScale) / legScale
    else if ay < smallLeg then
      if ay / legRatio ≤ ax then ax + ay
      else correctedRoot (ax / legScale) (ay / legScale) * legScale
    else if ay ≤ ax * legRatio then ax + ay
    else correctedRoot ax ay

end UnitCalculator
