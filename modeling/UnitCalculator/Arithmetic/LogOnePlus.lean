import UnitCalculator.Arithmetic.Sign

/-!
The natural logarithm of one plus `x`, exact where `x` is small. One plus `x` is brought to
`2 ^ k * (1 + f)` with `f` near zero; the rounding error of the sum goes into a correction, and
the logarithm of `1 + f` is a polynomial in `f / (2 + f)`.
-/

set_option autoImplicit false

namespace UnitCalculator

namespace LogOnePlus

/-- The logarithm of two, as a multiple of which `k` is exact, and the rest of it. -/
def ln2High : Float := Float.ofBits 0x3fe62e42fee00000

def ln2Low : Float := Float.ofBits 0x3dea39ef35793c76

def remainder (z : Float) : Float :=
  let z₂ := z * z
  let z₄ := z₂ * z₂
  let z₆ := z₄ * z₂
  let r₁ := z * 6.666666666666735130e-01
  let r₂ := 3.999999999940941908e-01 + z * 2.857142874366239149e-01
  let r₃ := 2.222219843214978396e-01 + z * 1.818357216161805012e-01
  let r₄ := 1.531383769920937332e-01 + z * 1.479819860511658591e-01
  r₁ + z₂ * r₂ + z₄ * r₃ + z₆ * r₄

def near (f : Float) : Float :=
  let hfsq := 0.5 * f * f
  let s := f / (2 + f)
  f - (hfsq - s * (hfsq + remainder (s * s)))

def nearest (f : Float) : Float :=
  if f == 0 then 0 else f - 0.5 * f * f * (1 - 0.66666666666666666 * f)

def scaled (k : Float) (f c : Float) (small : Bool) : Float :=
  let hfsq := 0.5 * f * f
  if small then
    if f == 0 then k * ln2High + (c + k * ln2Low)
    else
      let r := hfsq * (1 - 0.66666666666666666 * f)
      k * ln2High - ((r - (k * ln2Low + c)) - f)
  else
    let s := f / (2 + f)
    let r := remainder (s * s)
    k * ln2High - ((hfsq - (s * (hfsq + r) + (k * ln2Low + c))) - f)

def combine (k : Int) (f c : Float) (small : Bool) : Float :=
  if k = 0 then if small then nearest f else near f else scaled (Float.ofInt k) f c small

def highWord (x : Float) : Nat := x.toBits.toNat / Nat.pow 2 32

/-- `u` brought into the binade of one, or of a half above the square root of two. -/
def split (u c : Float) : Float :=
  let bits := u.toBits.toNat
  let k : Int := Int.ofNat (bits / Nat.pow 2 52 % Nat.pow 2 11) - 1023
  let fraction := bits % Nat.pow 2 52
  let high := fraction / Nat.pow 2 32
  if high < 0x6a09e then
    combine k (Float.ofBits (fraction + 0x3ff * Nat.pow 2 52).toUInt64 - 1) c (high = 0)
  else
    combine (k + 1) (Float.ofBits (fraction + 0x3fe * Nat.pow 2 52).toUInt64 - 1) c
      ((0x100000 - high) / 4 = 0)

end LogOnePlus

open LogOnePlus in
def logOnePlus (x : Float) : Float :=
  let magnitude := highWord x % Nat.pow 2 31
  let negative := signBit x
  if x.isNaN then x
  else if negative && 0x3ff00000 ≤ magnitude then
    if x == -1 then -infinity else notANumber
  else if magnitude < 0x3e200000 then
    if magnitude < 0x3c900000 then x else x - x * x * 0.5
  else if (!negative && magnitude < 0x3fda827a) || (negative && magnitude ≤ 0x3fd2bec3) then near x
  else if 0x7ff00000 ≤ magnitude then x
  else if magnitude < 0x43400000 then
    let u := 1 + x
    let c := if (2 : Float) ≤ u then 1 - (u - x) else x - (u - 1)
    split u (c / u)
  else split x 0

end UnitCalculator
