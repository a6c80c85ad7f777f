import UnitCalculator.Arithmetic.Sign

/-!
The correctly rounded sum of a list of floats. Partial sums of which no two overlap hold the
exact sum so far; adding a term passes it through them, and what rounding loses stays behind as a
partial of its own.
-/

set_option autoImplicit false

namespace UnitCalculator

namespace ExactSum

def twoSum (x y : Float) : Float × Float :=
  let big := if x.abs < y.abs then y else x
  let small := if x.abs < y.abs then x else y
  let high := big + small
  (high, small - (high - big))

def pass (x : Float) : List Float → Float × List Float
  | [] => (x, [])
  | y :: ys =>
    let (high, low) := twoSum x y
    let (sum, rest) := pass high ys
    (sum, if low == 0 then rest else low :: rest)

structure State where
  partials : List Float
  /-- The sums of the infinite terms, and of all terms that are not finite. -/
  infinite : Float
  special : Float

def State.add (s : State) (x : Float) : Option State :=
  let (sum, rest) := pass x s.partials
  if sum == 0 then some { s with partials := rest }
  else if sum.isFinite then some { s with partials := rest ++ [sum] }
  else if x.isFinite then none
  else some ⟨[], if x.isInf then s.infinite + x else s.infinite, s.special + x⟩

/-- Partials from the largest on. Once a partial is lost to rounding, the sign of the next one
tells whether a half has to go away from zero. -/
def round (high : Float) : List Float → Float
  | [] => high
  | y :: rest =>
    let sum := high + y
    let low := y - (sum - high)
    if low == 0 then round sum rest
    else
      match rest with
      | [] => sum
      | z :: _ =>
        let twice := low * 2
        let up := sum + twice
        if ((low < 0 && z < 0) || (0 < low && 0 < z)) && twice == up - sum then up else sum

def State.total (s : State) : Option Float :=
  if s.special == 0 then
    match s.partials.reverse with
    | [] => some 0
    | x :: rest => some (round x rest)
  else if s.infinite.isNaN then none
  else some s.special

end ExactSum

def exactSum (xs : List Float) : Option Float :=
  (xs.foldlM ExactSum.State.add ⟨[], 0, 0⟩).bind ExactSum.State.total

end UnitCalculator
