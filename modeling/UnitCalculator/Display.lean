import UnitCalculator.Term.Spelled

/-!
How results are shown. Integers come in one of four radixes with their digits in groups, under the
marks that literals have; whole floats come without a point as long as every digit counts.
-/

set_option autoImplicit false

namespace UnitCalculator

inductive Radix where
  | binary | octal | decimal | hexadecimal
  deriving DecidableEq, Repr

namespace Radix

def base : Radix → Nat
  | binary => 2
  | octal => 8
  | decimal => 10
  | hexadecimal => 16

def mark : Radix → List Char
  | binary => ['0', 'b']
  | octal => ['0']
  | decimal => []
  | hexadecimal => ['0', 'x']

end Radix

namespace Display

def groupFromRight (size : Nat) : List Char → List Char
  | [] => []
  | c :: ds =>
    if ds.length ≠ 0 && ds.length % size = 0 then c :: '_' :: groupFromRight size ds
    else c :: groupFromRight size ds

def group (digits : List Char) (size : Nat) : List Char :=
  if size = 0 then digits else groupFromRight size digits

def mark (radix : Radix) (n : Int) : List Char :=
  if radix = .octal && n = 0 then [] else radix.mark

def int (radix : Radix) (size : Nat) (n : Int) : List Char :=
  (if n < 0 then ['-'] else []) ++ mark radix n ++ group (Nat.toDigits radix.base n.natAbs) size

def exactLimit : Float := 9007199254740992

def float (x : Float) : List Char :=
  if isWhole x && x.abs < exactLimit then (toString (truncate x)).toList
  else Layout.standard.float x

def complex (z : ComplexFloat) : List Char :=
  float z.re ++ (if Layout.isNegative z.im then '-' else '+') :: float z.im.abs ++ ['i']

def number (radix : Radix) (size : Nat) : Number → List Char
  | .int n => int radix size n
  | .real x => float x
  | .complex z => complex z

def powerText (p : String × Int) : String :=
  if p.2 = 1 then p.1 else p.1 ++ "^" ++ toString p.2

/-- `m^2*s`, or one where nothing stands above the bar; each symbol below it has its own bar. -/
def fraction (f : Fraction) : String :=
  let above := String.intercalate "*" (f.numerator.map powerText)
  let below := String.join (f.denominator.map fun p => "/" ++ powerText p)
  (if above.isEmpty then "1" else above) ++ below

def isBinary : Term → Bool
  | .binary _ _ _ => true
  | _ => false

def parenthesized (s : String) : String := "(" ++ s ++ ")"

/-- A unit without its brackets. Operators group to the left, so an operand on the right needs
parentheses, and so does the base of a power. -/
def unit : Term → String
  | .bracketed t => unit t
  | .fraction f => fraction f
  | .name s => s
  | .number (.int n) _ => toString n
  | .binary o l r =>
    let lhs := if isBinary l && o = .caret then parenthesized (unit l) else unit l
    let rhs := if isBinary r && o ≠ .caret then parenthesized (unit r) else unit r
    lhs ++ o.text ++ rhs
  | t => t.spelled

def isPlain : Term → Bool
  | .absent => true
  | .fraction f => f.isDimensionless
  | _ => false

def term (radix : Radix) (size : Nat) : Term → String
  | .empty => ""
  | .number a u =>
    let text := String.ofList (number radix size a)
    if isPlain u then text else text ++ "[" ++ unit u ++ "]"
  | t => t.spelled

end Display
end UnitCalculator
