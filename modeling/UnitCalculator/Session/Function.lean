import UnitCalculator.Arithmetic.ExactSum
import UnitCalculator.ComplexFloat.Elementary
import UnitCalculator.Number

/-!
The functions of the calculator. They take floats and complex numbers; no result means that the
function has no value there or that it overflows.
-/

set_option autoImplicit false

namespace UnitCalculator

inductive Function where
  | sin | cos | tan | asin | acos | atan
  | exp | log | log10 | sqrt | abs
  | max | min | ave | sum
  deriving DecidableEq, Repr

namespace Function

def all : List Function :=
  [sin, cos, tan, asin, acos, atan, exp, log, log10, sqrt, abs, max, min, ave, sum]

def name : Function → String
  | sin => "sin"
  | cos => "cos"
  | tan => "tan"
  | asin => "asin"
  | acos => "acos"
  | atan => "atan"
  | exp => "exp"
  | log => "log"
  | log10 => "log10"
  | sqrt => "sqrt"
  | abs => "abs"
  | max => "max"
  | min => "min"
  | ave => "ave"
  | sum => "sum"

def arity : Function → Option Nat
  | max | min | ave | sum => none
  | _ => some 1

/-- What is no number where the argument is one, or infinite where it is finite, is refused. -/
def ofReal? (f : Float → Float) (x : Float) : Option Number :=
  let r := f x
  if (r.isNaN && !x.isNaN) || (r.isInf && x.isFinite) then none else some (.real r)

def ofComplex? (f : ComplexFloat → Option ComplexFloat) (z : ComplexFloat) : Option Number :=
  (f z).map .complex

def apply₁ (f : Float → Float) (g : ComplexFloat → Option ComplexFloat) : Number → Option Number
  | .complex z => ofComplex? g z
  | .real x => ofReal? f x
  | .int n => ofReal? f (Float.ofInt n)

def absolute : Number → Option Number
  | .complex z => z.abs?.map .real
  | .real x => some (.real x.abs)
  | .int n => some (.real (Float.ofInt n).abs)

def real? : Number → Option Float
  | .real x => some x
  | .int n => some (Float.ofInt n)
  | .complex _ => none

/-- The first of the best; complex numbers cannot be compared, so only a single one passes. -/
def best (better : Float → Float → Bool) : List Number → Option Number
  | [] => some (.real 0)
  | [a] => some a
  | as => do
    match ← as.mapM real? with
    | [] => some (.real 0)
    | x :: xs => some (.real (xs.foldl (fun b y => if better y b then y else b) x))

def total (as : List Number) : Option Float := do exactSum (← as.mapM real?)

def average (as : List Number) : Option Float :=
  if as.isEmpty then some 0 else (total as).map (· / Float.ofNat as.length)

def apply (f : Function) (as : List Number) : Option Number :=
  match f with
  | max => best (fun y b => b < y) as
  | min => best (fun y b => y < b) as
  | ave => (average as).map .real
  | sum => (total as).map .real
  | f =>
    match as with
    | [a] =>
      match f with
      | sin => apply₁ Float.sin ComplexFloat.sin? a
      | cos => apply₁ Float.cos ComplexFloat.cos? a
      | tan => apply₁ Float.tan ComplexFloat.tan? a
      | asin => apply₁ Float.asin (fun z => some z.asin) a
      | acos => apply₁ Float.acos (fun z => some z.acos) a
      | atan => apply₁ Float.atan ComplexFloat.atan? a
      | exp => apply₁ Float.exp ComplexFloat.exp? a
      | log => apply₁ Float.log ComplexFloat.log? a
      | log10 => apply₁ Float.log10 ComplexFloat.log10? a
      | sqrt => apply₁ Float.sqrt (fun z => some z.sqrt) a
      | _ => absolute a
    | _ => none

end Function
end UnitCalculator
