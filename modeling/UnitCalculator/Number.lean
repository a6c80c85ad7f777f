import UnitCalculator.Arithmetic.Whole
import UnitCalculator.ComplexFloat.Power
import UnitCalculator.Decimal.Layout

/-!
The numbers of the calculator: integers of 128 bits, floats and complex numbers. Operands are
brought to the wider of their two kinds; integers stay integers wherever the operation is exact
on them.
-/

set_option autoImplicit false

namespace UnitCalculator

inductive Number where
  | int (n : Int)
  | real (x : Float)
  | complex (z : ComplexFloat)
  deriving DecidableEq

instance : Inhabited Number := ⟨.int 0⟩

inductive Fault where
  | overflow
  | zeroDivisor
  | power
  deriving DecidableEq, Repr

inductive Operands where
  | int (m n : Int)
  | real (x y : Float)
  | complex (z w : ComplexFloat)

namespace Number

def toComplex : Number → ComplexFloat
  | int n => .ofReal (Float.ofInt n)
  | real x => .ofReal x
  | complex z => z

def align : Number → Number → Operands
  | int m, int n => .int m n
  | int m, real y => .real (Float.ofInt m) y
  | real x, int n => .real x (Float.ofInt n)
  | real x, real y => .real x y
  | complex z, b => .complex z b.toComplex
  | a, complex w => .complex a.toComplex w

def isZero : Number → Bool
  | int n => n = 0
  | real x => x == 0
  | complex z => z.isZero

def checkedInt (n : Int) : Except Fault Number :=
  match Whole.checked n with
  | some n => .ok (int n)
  | none => .error .overflow

def add (a b : Number) : Except Fault Number :=
  match align a b with
  | .int m n => checkedInt (m + n)
  | .real x y => .ok (real (x + y))
  | .complex z w => .ok (complex (z.add w))

def sub (a b : Number) : Except Fault Number :=
  match align a b with
  | .int m n => checkedInt (m - n)
  | .real x y => .ok (real (x - y))
  | .complex z w => .ok (complex (z.sub w))

def mul (a b : Number) : Except Fault Number :=
  match align a b with
  | .int m n => checkedInt (m * n)
  | .real x y => .ok (real (x * y))
  | .complex z w => .ok (complex (z.mul w))

def divComplex (z w : ComplexFloat) : Except Fault Number :=
  match z.div? w with
  | some r => .ok (complex r)
  | none => .error .zeroDivisor

/-- Integers divide toward zero. A zero divisor of any kind is refused. -/
def div (a b : Number) : Except Fault Number :=
  if b.isZero then .error .zeroDivisor
  else
    match align a b with
    | .int m n => checkedInt (m.tdiv n)
    | .real x y => .ok (real (x / y))
    | .complex z w => divComplex z w

def mod : Number → Number → Except Fault Number
  | int m, int n => if n = 0 then .error .zeroDivisor else .ok (int (m.tmod n))
  | _, _ => .ok (int 0)

def powReal (x y : Float) : Except Fault Number :=
  match powFloat? x y with
  | some (.real r) => .ok (real r)
  | some (.complex r) => .ok (complex r)
  | none => .error .power

/-- Exact for an integer under a natural exponent. -/
def pow (a b : Number) : Except Fault Number :=
  match align a b with
  | .int m (.ofNat n) =>
    match Whole.pow? m n with
    | some r => .ok (int r)
    | none => .error .overflow
  | .int m n => powReal (Float.ofInt m) (Float.ofInt n)
  | .real x y => powReal x y
  | .complex z w =>
    match z.pow? w with
    | some r => .ok (complex r)
    | none => .error .power

def parallelReal (x y : Float) : Except Fault Number :=
  if x + y == 0 then .error .zeroDivisor else .ok (real (x * y / (x + y)))

def parallel (a b : Number) : Except Fault Number :=
  match align a b with
  | .int m n => parallelReal (Float.ofInt m) (Float.ofInt n)
  | .real x y => parallelReal x y
  | .complex z w =>
    if (z.add w).isZero then .error .zeroDivisor else divComplex (z.mul w) (z.add w)

def neg : Number → Except Fault Number
  | int n => checkedInt (-n)
  | real x => .ok (real (-x))
  | complex z => .ok (complex z.neg)

def scale (factor : Float) : Number → Number
  | int n => real (Float.ofInt n * factor)
  | real x => real (x * factor)
  | complex z => complex (z.mul (.ofReal factor))

/-- An integer equals a float only if the float is exactly that integer. -/
def intEqualsReal (n : Int) (x : Float) : Bool := isWhole x && truncate x = n

def equals : Number → Number → Bool
  | int m, int n => m = n
  | int m, real y => intEqualsReal m y
  | real x, int n => intEqualsReal n x
  | real x, real y => x == y
  | complex z, complex w => z.equal w
  | complex z, int n | int n, complex z => intEqualsReal n z.re && z.im == 0
  | complex z, real x | real x, complex z => z.re == x && z.im == 0

/-- What a variable or a function takes: a float, or a complex number as it is. -/
def widened : Number → Number
  | int n => real (Float.ofInt n)
  | a => a

end Number

def complexText (z : ComplexFloat) : String :=
  let im := Layout.part.float z.im
  if z.re == 0 && !signBit z.re then String.ofList (im ++ ['j'])
  else
    let sign := if Layout.isNegative z.im then [] else ['+']
    String.ofList ('(' :: Layout.part.float z.re ++ sign ++ im ++ ['j', ')'])

namespace Number

def text : Number → String
  | int n => toString n
  | real x => floatText x
  | complex z => complexText z

def kind : Number → String
  | int _ => "Int"
  | real _ => "Float"
  | complex _ => "Complex"

end Number
end UnitCalculator
