import UnitCalculator.Decimal.Shortest

/-!
Decimals as text, and the float nearest to a decimal.
-/

set_option autoImplicit false

namespace UnitCalculator.Decimal

def readExponent? (cs : List Char) : Option Int :=
  let (negative, ds) := match cs with
    | '-' :: ds => (true, ds)
    | '+' :: ds => (false, ds)
    | ds => (false, ds)
  if ds.isEmpty || !ds.all Char.isDigit then none
  else
    let n : Int := Nat.ofDigitChars 10 ds 0
    some (if negative then -n else n)

def read? (cs : List Char) : Option Decimal :=
  let whole := cs.takeWhile Char.isDigit
  let (fraction, tail) := match cs.dropWhile Char.isDigit with
    | '.' :: r => (r.takeWhile Char.isDigit, r.dropWhile Char.isDigit)
    | r => ([], r)
  if whole.isEmpty && fraction.isEmpty then none
  else
    let coefficient := Nat.ofDigitChars 10 (whole ++ fraction) 0
    match tail with
    | [] => some ⟨coefficient, -fraction.length⟩
    | c :: r =>
      if c = 'e' || c = 'E' then
        (readExponent? r).map fun e => ⟨coefficient, e - fraction.length⟩
      else none

/-- The nearest float. What exceeds every float is infinite, what is below half of the least one
is zero, and neither is worth raising ten to a large power for. -/
def toFloat (d : Decimal) : Float :=
  if d.coefficient = 0 then 0
  else if 400 < d.exponent then 1 / 0
  else if topGrid ⟨d.coefficient, 0⟩ + d.exponent < -400 then 0
  else Float.ofScientific d.coefficient (d.exponent < 0) d.exponent.natAbs

end UnitCalculator.Decimal
