import UnitCalculator.Scan
import UnitCalculator.Term.Spelled

/-!
What keeps the host from writing a term out: too many levels for its stack, or an integer with more
digits than the host converts, which are as many as it reads.
-/

set_option autoImplicit false

namespace UnitCalculator

inductive Obstacle where
  | tooDeep
  | tooLong
  deriving DecidableEq, Repr

def Obstacle.message : Obstacle → String
  | tooDeep => "maximum recursion depth exceeded"
  | tooLong =>
    "Exceeds the limit (" ++ toString Literal.decimalDigitLimit ++
      " digits) for integer string conversion"

def intObstacle (n : Int) : Option Obstacle :=
  if Literal.decimalDigitLimit < (Nat.toDigits 10 n.natAbs).length then some .tooLong else none

def Number.obstacle : Number → Option Obstacle
  | int n => intObstacle n
  | _ => none

def Token.obstacle : Token → Option Obstacle
  | int n => intObstacle n
  | _ => none

def Fraction.obstacle (f : Fraction) : Option Obstacle :=
  (f.numerator ++ f.denominator).findSome? fun p => intObstacle p.2

def unitObstacle : Option Fraction → Option Obstacle
  | none => none
  | some f => f.obstacle

/-- The first obstacle from left to right, with `n` levels of the stack left. -/
def Term.obstacle : Nat → Term → Option Obstacle
  | 0, _ => some .tooDeep
  | n + 1, t =>
    match t with
    | .absent | .empty | .name _ => none
    | .number a u => a.obstacle.or (u.obstacle n)
    | .signed _ t => t.obstacle n
    | .binary _ l r => (l.obstacle n).or (r.obstacle n)
    | .call _ ts => ts.findSome? fun t => t.obstacle n
    | .command _ ts => ts.findSome? Token.obstacle
    | .bracketed t => t.obstacle n
    | .fraction f => f.obstacle

end UnitCalculator
