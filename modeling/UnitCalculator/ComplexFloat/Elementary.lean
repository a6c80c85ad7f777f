import UnitCalculator.Arithmetic.LogOnePlus
import UnitCalculator.ComplexFloat

/-!
Elementary functions of complex numbers, with the branch cuts, signed zeros and infinities of the
C standard. The circular functions are the hyperbolic ones turned by a right angle. No result
means that the value does not exist or overflows.
-/

set_option autoImplicit false

namespace UnitCalculator

def pi : Float := 3.141592653589793

def eulerNumber : Float := 2.718281828459045

namespace ComplexFloat

def ln2 : Float := 0.6931471805599453

def ln10 : Float := 2.302585092994046

def large : Float := 1.7976931348623157e308 / 4

def leastNormal : Float := 2.2250738585072014e-308

/-- Two to the powers 53 and -27: numbers below the normal range are brought up by the one, and
square roots of them down again by the other. -/
def rootUp : Float := 9007199254740992

def rootDown : Float := 1 / 134217728

def turn (z : ComplexFloat) : ComplexFloat := ⟨-z.im, z.re⟩

def turnBack (z : ComplexFloat) : ComplexFloat := ⟨z.im, -z.re⟩

def halfLength (z : ComplexFloat) : Float := hypot (z.re / 2) (z.im / 2)

def finiteOrNone (z : ComplexFloat) : Option ComplexFloat := if z.isInfinite then none else some z

def sqrtAtInfinity (z : ComplexFloat) : ComplexFloat :=
  if z.im.isInf then ⟨infinity, z.im⟩
  else if z.re.isInf then
    if 0 < z.re then ⟨infinity, if z.im.isNaN then z.im else copySign 0 z.im⟩
    else if z.im.isNaN then ⟨z.im, infinity⟩
    else ⟨0, copySign infinity z.im⟩
  else ⟨notANumber, notANumber⟩

/-- An eighth of the larger part is added to the length, so that nothing overflows. -/
def sqrt (z : ComplexFloat) : ComplexFloat :=
  if !z.isFinite then sqrtAtInfinity z
  else if z.isZero then ⟨0, z.im⟩
  else
    let ax := z.re.abs
    let ay := z.im.abs
    let s :=
      if ax < leastNormal && ay < leastNormal then
        let ax := ax * rootUp
        (ax + hypot ax (ay * rootUp)).sqrt * rootDown
      else
        let ax := ax / 8
        2 * (ax + hypot ax (ay / 8)).sqrt
    let d := ay / (2 * s)
    if 0 ≤ z.re then ⟨s, copySign d z.im⟩ else ⟨d, copySign s z.im⟩

/-- The logarithm of the length; near one it is taken of the square less one. -/
def logLength (z : ComplexFloat) : Float :=
  let ax := z.re.abs
  let ay := z.im.abs
  if large < ax || large < ay then (hypot (ax / 2) (ay / 2)).log + ln2
  else if ax < leastNormal && ay < leastNormal then
    (hypot (ax * rootUp) (ay * rootUp)).log - 53 * ln2
  else
    let h := hypot ax ay
    if 0.71 ≤ h && h ≤ 1.73 then
      let am := if ay < ax then ax else ay
      let an := if ay < ax then ay else ax
      logOnePlus ((am - 1) * (am + 1) + an * an) / 2
    else h.log

def log? (z : ComplexFloat) : Option ComplexFloat :=
  if !z.isFinite then
    some ⟨if z.isInfinite then infinity else notANumber, Float.atan2 z.im z.re⟩
  else if z.isZero then none
  else some ⟨logLength z, Float.atan2 z.im z.re⟩

def log10? (z : ComplexFloat) : Option ComplexFloat :=
  (log? z).map fun r => ⟨r.re / ln10, r.im / ln10⟩

def logLarge : Float := large.log

def directed (length angle : Float) : ComplexFloat :=
  ⟨copySign length angle.cos, copySign length angle.sin⟩

def expAtInfinity? (z : ComplexFloat) : Option ComplexFloat :=
  if z.re.isInf && z.im.isFinite && !(z.im == 0) then
    some (directed (if 0 < z.re then infinity else 0) z.im)
  else if z.im.isInf && (z.re.isFinite || (z.re.isInf && 0 < z.re)) then none
  else if z.re.isInf then
    if z.im == 0 then some ⟨if 0 < z.re then infinity else 0, z.im⟩
    else if 0 < z.re then some ⟨infinity, notANumber⟩
    else some ⟨0, 0⟩
  else if z.im == 0 then some ⟨notANumber, z.im⟩
  else some ⟨notANumber, notANumber⟩

def exp? (z : ComplexFloat) : Option ComplexFloat :=
  if !z.isFinite then expAtInfinity? z
  else if logLarge < z.re then
    let l := (z.re - 1).exp
    finiteOrNone ⟨l * z.im.cos * eulerNumber, l * z.im.sin * eulerNumber⟩
  else
    let l := z.re.exp
    finiteOrNone ⟨l * z.im.cos, l * z.im.sin⟩

def sinhAtInfinity? (z : ComplexFloat) : Option ComplexFloat :=
  if z.re.isInf && z.im.isFinite && !(z.im == 0) then
    let d := directed infinity z.im
    some (if 0 < z.re then d else ⟨-d.re, d.im⟩)
  else if z.im.isInf && !z.re.isNaN then none
  else if z.re.isInf then
    if z.im == 0 then some z else some ⟨infinity, notANumber⟩
  else if z.re == 0 then some ⟨0, notANumber⟩
  else if z.im == 0 then some ⟨notANumber, z.im⟩
  else some ⟨notANumber, notANumber⟩

def sinh? (z : ComplexFloat) : Option ComplexFloat :=
  if !z.isFinite then sinhAtInfinity? z
  else if logLarge < z.re.abs then
    let x := z.re - copySign 1 z.re
    finiteOrNone ⟨z.im.cos * x.sinh * eulerNumber, z.im.sin * x.cosh * eulerNumber⟩
  else finiteOrNone ⟨z.im.cos * z.re.sinh, z.im.sin * z.re.cosh⟩

def coshAtInfinity? (z : ComplexFloat) : Option ComplexFloat :=
  if z.re.isInf && z.im.isFinite && !(z.im == 0) then
    let d := directed infinity z.im
    some (if 0 < z.re then d else ⟨d.re, -d.im⟩)
  else if z.im.isInf && !z.re.isNaN then none
  else if z.re.isInf then
    if z.im == 0 then some ⟨infinity, copySign z.im (if signBit z.re then -z.im else z.im)⟩
    else some ⟨infinity, notANumber⟩
  else if z.re == 0 then some ⟨notANumber, 0⟩
  else if z.im == 0 then some ⟨notANumber, 0⟩
  else some ⟨notANumber, notANumber⟩

def cosh? (z : ComplexFloat) : Option ComplexFloat :=
  if !z.isFinite then coshAtInfinity? z
  else if logLarge < z.re.abs then
    let x := z.re - copySign 1 z.re
    finiteOrNone ⟨z.im.cos * x.cosh * eulerNumber, z.im.sin * x.sinh * eulerNumber⟩
  else finiteOrNone ⟨z.im.cos * z.re.cosh, z.im.sin * z.re.sinh⟩

def tanhAtInfinity? (z : ComplexFloat) : Option ComplexFloat :=
  if z.re.isInf then
    let im :=
      if z.im.isFinite then
        if z.im == 0 then z.im else copySign 0 (2 * z.im.sin * z.im.cos)
      else 0
    some ⟨copySign 1 z.re, im⟩
  else if z.im.isInf && z.re.isFinite then none
  else if z.im == 0 then some ⟨notANumber, z.im⟩
  else some ⟨notANumber, notANumber⟩

/-- One less the square of the hyperbolic tangent is taken as the inverse square of the cosine,
or as an exponential where that is large. -/
def tanh? (z : ComplexFloat) : Option ComplexFloat :=
  if !z.isFinite then tanhAtInfinity? z
  else if logLarge < z.re.abs then
    some ⟨copySign 1 z.re, 4 * z.im.sin * z.im.cos * (-2 * z.re.abs).exp⟩
  else
    let tx := z.re.tanh
    let ty := z.im.tan
    let cx := 1 / z.re.cosh
    let t := tx * ty
    let scale := 1 + t * t
    some ⟨tx * (1 + ty * ty) / scale, ty / scale * cx * cx⟩

def sin? (z : ComplexFloat) : Option ComplexFloat := (sinh? z.turn).map turnBack

def cos? (z : ComplexFloat) : Option ComplexFloat := cosh? z.turn

def tan? (z : ComplexFloat) : Option ComplexFloat := (tanh? z.turn).map turnBack

def acosAtInfinity (z : ComplexFloat) : ComplexFloat :=
  if z.isInfinite then
    ⟨Float.atan2 z.im.abs z.re, if z.im.isNaN then infinity else -copySign infinity z.im⟩
  else if z.re == 0 then ⟨pi / 2, notANumber⟩
  else ⟨notANumber, notANumber⟩

def acos (z : ComplexFloat) : ComplexFloat :=
  if !z.isFinite then acosAtInfinity z
  else if large < z.re.abs || large < z.im.abs then
    let l := (halfLength z).log + ln2 * 2
    ⟨Float.atan2 z.im.abs z.re, if z.re < 0 then -copySign l z.im else copySign l (-z.im)⟩
  else
    let s := sqrt ⟨1 - z.re, -z.im⟩
    let t := sqrt ⟨1 + z.re, z.im⟩
    ⟨2 * Float.atan2 s.re t.re, (t.re * s.im - t.im * s.re).asinh⟩

def asinhAtInfinity (z : ComplexFloat) : ComplexFloat :=
  if z.re.isInf then ⟨z.re, Float.atan2 z.im z.re.abs⟩
  else if z.im.isInf then
    if z.re.isNaN then ⟨infinity, notANumber⟩
    else ⟨copySign infinity z.re, copySign (pi / 2) z.im⟩
  else if z.im == 0 then ⟨notANumber, z.im⟩
  else ⟨notANumber, notANumber⟩

def asinh (z : ComplexFloat) : ComplexFloat :=
  if !z.isFinite then asinhAtInfinity z
  else if large < z.re.abs || large < z.im.abs then
    let l := (halfLength z).log + ln2 * 2
    ⟨if 0 ≤ z.im then copySign l z.re else -copySign l (-z.re), Float.atan2 z.im z.re.abs⟩
  else
    let s := sqrt ⟨1 + z.im, -z.re⟩
    let t := sqrt ⟨1 - z.im, z.re⟩
    ⟨(s.re * t.im - t.re * s.im).asinh, Float.atan2 z.im (s.re * t.re - s.im * t.im)⟩

def atanhAtInfinity (z : ComplexFloat) : ComplexFloat :=
  if z.re.isInf then
    ⟨copySign 0 z.re, if z.im.isNaN then z.im else copySign (pi / 2) z.im⟩
  else if z.im.isInf then
    ⟨if z.re.isNaN then 0 else copySign 0 z.re, copySign (pi / 2) z.im⟩
  else if z.re == 0 then ⟨z.re, notANumber⟩
  else ⟨notANumber, notANumber⟩

/-- A number whose real part is not negative. At one there is a pole; a number whose square
overflows is replaced by the inverse of it. -/
def atanhRight? (z : ComplexFloat) : Option ComplexFloat :=
  let ay := z.im.abs
  if large.sqrt < z.re || large.sqrt < ay then
    let h := halfLength z
    some ⟨z.re / 4 / h / h, -copySign (pi / 2) (-z.im)⟩
  else if z.re == 1 && ay < leastNormal.sqrt then
    if ay == 0 then none
    else
      some ⟨-(ay.sqrt / (hypot ay 2).sqrt).log, copySign (Float.atan2 2 (-ay) / 2) z.im⟩
  else
    let d := 1 - z.re
    some ⟨logOnePlus (4 * z.re / (d * d + ay * ay)) / 4,
      -Float.atan2 (-2 * z.im) (d * (1 + z.re) - ay * ay) / 2⟩

def atanh? (z : ComplexFloat) : Option ComplexFloat :=
  if !z.isFinite then some (atanhAtInfinity z)
  else if signBit z.re then (atanhRight? z.neg).map neg
  else atanhRight? z

def asin (z : ComplexFloat) : ComplexFloat := (asinh z.turn).turnBack

def atan? (z : ComplexFloat) : Option ComplexFloat := (atanh? z.turn).map turnBack

end ComplexFloat
end UnitCalculator
