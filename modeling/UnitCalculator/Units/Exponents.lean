/-!
Exponents of unit symbols: pairs of a symbol and its count, in the order of the symbols. A symbol
occurs once at most; the order is what makes equal units equal lists.
-/

set_option autoImplicit false

namespace UnitCalculator

abbrev Exponents := List (String × Int)

namespace Exponents

def count? (s : String) : Exponents → Option Int
  | [] => none
  | (t, n) :: r => if s = t then some n else count? s r

def count (s : String) (x : Exponents) : Int := (x.count? s).getD 0

/-- Changes the count of one symbol, which takes its place in the order if it is new. -/
def update (s : String) (f : Option Int → Int) : Exponents → Exponents
  | [] => [(s, f none)]
  | (t, n) :: r =>
    if s < t then (s, f none) :: (t, n) :: r
    else if s = t then (t, f (some n)) :: r
    else (t, n) :: update s f r

def set (s : String) (n : Int) (x : Exponents) : Exponents := x.update s fun _ => n

def add (s : String) (n : Int) (x : Exponents) : Exponents := x.update s fun m => m.getD 0 + n

def ofPairs (ps : List (String × Int)) : Exponents := ps.foldl (fun x p => x.set p.1 p.2) []

def positive (x : Exponents) : Exponents := x.filter fun p => 0 < p.2

def sum (x y : Exponents) : Exponents := (y.foldl (fun z p => z.add p.1 p.2) x).positive

def scale (n : Int) (x : Exponents) : Exponents := x.map fun p => (p.1, p.2 * n)

/-- What is left of `x` when as much as possible of `y` has been taken from it. Only symbols of
both sides cancel, and only what is above zero is kept. -/
def less (x y : Exponents) : Exponents :=
  positive (x.map fun p => (p.1, match y.count? p.1 with
    | some m => p.2 - min p.2 m
    | none => p.2))

def cancel (x y : Exponents) : Exponents × Exponents := (x.less y, y.less x)

def drop (s : String) (x : Exponents) : Exponents := x.filter fun p => p.1 ≠ s

end Exponents
end UnitCalculator
