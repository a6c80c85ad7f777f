import UnitCalculator.Decimal.Shortest

/-!
How a float is written: the shortest digits that read back, positional or with an exponent.
-/

set_option autoImplicit false

namespace UnitCalculator

structure Layout where
  /-- Exponents of the first digit that are written positionally. -/
  least : Int
  greatest : Int
  /-- What follows a whole positional number. -/
  wholeTail : List Char
  /-- The fewest digits of an exponent. -/
  exponentDigits : Nat

namespace Layout

def standard : Layout := ⟨-4, 15, ['.', '0'], 2⟩

def part : Layout := { standard with wholeTail := [] }

def padded (n : Nat) (digits : List Char) : List Char :=
  List.replicate (n - digits.length) '0' ++ digits

/-- Digits `ds` with the point after the digit of exponent zero; `e` is the exponent of the
first digit. -/
def positional (l : Layout) (ds : List Char) (e : Int) : List Char :=
  match e with
  | .negSucc n => '0' :: '.' :: (List.replicate n '0' ++ ds)
  | .ofNat n =>
    let whole := ds.take (n + 1) ++ List.replicate (n + 1 - ds.length) '0'
    let rest := ds.drop (n + 1)
    if rest.isEmpty then whole ++ l.wholeTail else whole ++ '.' :: rest

def scientific (l : Layout) (ds : List Char) (e : Int) : List Char :=
  let mantissa := if ds.length ≤ 1 then ds else ds.take 1 ++ '.' :: ds.drop 1
  let sign := if e < 0 then '-' else '+'
  mantissa ++ 'e' :: sign :: padded l.exponentDigits (Nat.toDigits 10 e.natAbs)

def magnitude (l : Layout) (x : Float) : List Char :=
  if x.isNaN then ['n', 'a', 'n']
  else if x.isInf then ['i', 'n', 'f']
  else
    let b := Binary.ofFloat x
    if b.mantissa = 0 then '0' :: l.wholeTail
    else
      let d := Decimal.shortest b
      let ds := Nat.toDigits 10 d.coefficient
      let e : Int := d.exponent + ds.length - 1
      if l.least ≤ e && e ≤ l.greatest then l.positional ds e else l.scientific ds e

def isNegative (x : Float) : Bool := signBit x && !x.isNaN

def float (l : Layout) (x : Float) : List Char :=
  if isNegative x then '-' :: l.magnitude x else l.magnitude x

end Layout

def floatText (x : Float) : String := String.ofList (Layout.standard.float x)

end UnitCalculator
