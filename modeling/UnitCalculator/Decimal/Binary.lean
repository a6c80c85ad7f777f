/-!
A finite float as an integer times a power of two.
-/

set_option autoImplicit false

namespace UnitCalculator

structure Binary where
  mantissa : Nat
  exponent : Int
  deriving DecidableEq, Repr

namespace Binary

/-- The magnitude of a finite float, read off its bits: 52 bits of fraction below 11 of exponent,
with a leading one unless the exponent field is zero. -/
def ofFloat (x : Float) : Binary :=
  let bits := x.toBits.toNat
  let fraction := bits % Nat.pow 2 52
  let field := bits / Nat.pow 2 52 % Nat.pow 2 11
  if field = 0 then ⟨fraction, -1074⟩ else ⟨Nat.pow 2 52 + fraction, Int.ofNat field - 1075⟩

def isBoundary (b : Binary) : Bool := b.mantissa = Nat.pow 2 52 && b.exponent ≠ -1074

def floor (b : Binary) : Nat :=
  match b.exponent with
  | .ofNat e => b.mantissa * Nat.pow 2 e
  | .negSucc e => b.mantissa / Nat.pow 2 (e + 1)

def isWhole (b : Binary) : Bool :=
  match b.exponent with
  | .ofNat _ => true
  | .negSucc e => b.mantissa % Nat.pow 2 (e + 1) = 0

end Binary

def signBit (x : Float) : Bool := Nat.pow 2 63 ≤ x.toBits.toNat

end UnitCalculator
