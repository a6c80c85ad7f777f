import UnitCalculator.Host
import UnitCalculator.Term.Writing

/-!
Why a unit has no canonical form.
-/

set_option autoImplicit false

namespace UnitCalculator

inductive UnitError where
  | malformed (unit : Term)
  | malformedExponent (exponent : Term)
  | exponentTooLarge (n : Int)
  | endless (unit : Term)
  /-- A scale factor is divided by one that has become zero. -/
  | scaleVanished
  /-- A power of a scale factor is no float. -/
  | scalePower

def UnitError.message : UnitError → String
  | malformed t => "Malformed unit expression: " ++ t.spelled
  | malformedExponent t => "Malformed unit exponent: " ++ t.spelled
  | exponentTooLarge n => "Unit exponent too large: " ++ toString n
  | endless t => "Unit expansion does not terminate: " ++ t.spelled
  | scaleVanished => "float division by zero"
  | scalePower => "Numerical result out of range"

def UnitError.obstacle [Host] : UnitError → Option Obstacle
  | malformed t | malformedExponent t | endless t => t.obstacle Host.writing
  | exponentTooLarge n => intObstacle n
  | scaleVanished | scalePower => none

end UnitCalculator
