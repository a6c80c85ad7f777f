import UnitCalculator.Decimal.Binary

/-!
Signs of floats and whole floats.
-/

set_option autoImplicit false

namespace UnitCalculator

def copySign (x y : Float) : Float := if signBit y then -x.abs else x.abs

def infinity : Float := 1 / 0

def notANumber : Float := 0 / 0

def isWhole (x : Float) : Bool := x.isFinite && (Binary.ofFloat x).isWhole

def isOdd (x : Float) : Bool := isWhole x && (Binary.ofFloat x).floor % 2 = 1

def truncate (x : Float) : Int :=
  let n : Int := (Binary.ofFloat x).floor
  if signBit x then -n else n

def isZero (x : Float) : Bool := x == 0

end UnitCalculator
