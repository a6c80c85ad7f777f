import UnitCalculator.Decimal.Binary

/-!
The shortest decimal that reads back as a given float. The reals that round to the float form an
interval around it; on the coarsest decimal grid with a point in that interval, the point nearest
to the float is the answer.
-/

set_option autoImplicit false

namespace UnitCalculator

structure Decimal where
  coefficient : Nat
  exponent : Int
  deriving DecidableEq, Repr

namespace Decimal

/-- A magnitude in quarters of the last place of a float, with the interval that rounds to it. -/
structure Rounding where
  low : Nat
  middle : Nat
  high : Nat
  closed : Bool
  exponent : Int

/-- Half a place to each side, but a quarter below a boundary; a tie goes to the even mantissa. -/
def Rounding.ofBinary (b : Binary) : Rounding where
  low := 4 * b.mantissa - (if b.isBoundary then 1 else 2)
  middle := 4 * b.mantissa
  high := 4 * b.mantissa + 2
  closed := b.mantissa % 2 = 0
  exponent := b.exponent - 2

/-- Point `d` of the grid of tenth powers `k` is compared with `x` quarters as `d * grid` with
`x * unit`. -/
def Rounding.grid (r : Rounding) (k : Int) : Nat :=
  Nat.pow 10 k.toNat * Nat.pow 2 (-r.exponent).toNat

def Rounding.unit (r : Rounding) (k : Int) : Nat :=
  Nat.pow 10 (-k).toNat * Nat.pow 2 r.exponent.toNat

def Rounding.holds (r : Rounding) (k : Int) (d : Nat) : Bool :=
  let p := d * r.grid k
  if r.closed then r.low * r.unit k ≤ p && p ≤ r.high * r.unit k
  else r.low * r.unit k < p && p < r.high * r.unit k

def Rounding.onGrid (r : Rounding) (k : Int) : Option Decimal :=
  let m := r.middle * r.unit k
  let d := m / r.grid k
  match decide (0 < d) && r.holds k d, r.holds k (d + 1) with
  | false, false => none
  | true, false => some ⟨d, k⟩
  | false, true => some ⟨d + 1, k⟩
  | true, true =>
    let below := m - d * r.grid k
    let above := (d + 1) * r.grid k - m
    some ⟨if below < above || (below = above && d % 2 = 0) then d else d + 1, k⟩

def Rounding.search (r : Rounding) : Nat → Int → Decimal
  | 0, k => ⟨r.middle * r.unit k / r.grid k, k⟩
  | n + 1, k => (r.onGrid k).getD (r.search n (k - 1))

/-- An exponent of ten that is not below the magnitude: 30103 / 100000 is above the logarithm of
two. -/
def topGrid (b : Binary) : Int :=
  ((Nat.log2 b.mantissa + 1 : Nat) + b.exponent) * 30103 / 100000 + 1

/-- Seventeen digits always suffice, and the top grid is at most two above the first digit. -/
def shortest (b : Binary) : Decimal := (Rounding.ofBinary b).search 22 (topGrid b)

end Decimal
end UnitCalculator
