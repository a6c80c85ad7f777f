import UnitCalculator.Number
import UnitCalculator.Token
import UnitCalculator.Units.Exponents

/-!
Terms: lines as they are read, the units in them, and the values they lead to. A unit is itself a
term, made of symbols, the number one, products, quotients and powers as it is written, or a
fraction of exponents once it is canonical.
-/

set_option autoImplicit false

namespace UnitCalculator

structure Fraction where
  numerator : List (String × Int)
  denominator : List (String × Int)
  deriving DecidableEq, Repr

inductive Term where
  /-- No term: the unit of a plain number. -/
  | absent
  /-- No value: what a command results in. -/
  | empty
  | number (value : Number) (unit : Term)
  | signed (op : Operator) (operand : Term)
  | binary (op : Operator) (lhs rhs : Term)
  /-- A constant or variable, or a symbol of a unit. -/
  | name (name : String)
  | call (function : String) (arguments : List Term)
  /-- A command takes tokens, not terms. -/
  | command (name : String) (arguments : List Token)
  /-- A unit in brackets, as it was written. -/
  | bracketed (inner : Term)
  | fraction (f : Fraction)
  deriving Inhabited

namespace Term

/-- Induction over a term; what holds of all arguments is at hand for a call. -/
@[induction_eliminator]
theorem induction {motive : Term → Prop} (absent : motive absent) (empty : motive empty)
    (number : ∀ a u, motive u → motive (number a u))
    (signed : ∀ op t, motive t → motive (signed op t))
    (binary : ∀ op l r, motive l → motive r → motive (binary op l r))
    (name : ∀ s, motive (name s))
    (call : ∀ f ts, (∀ t ∈ ts, motive t) → motive (call f ts))
    (command : ∀ c ts, motive (command c ts))
    (bracketed : ∀ t, motive t → motive (bracketed t))
    (fraction : ∀ f, motive (fraction f)) (t : Term) : motive t :=
  @Term.rec motive (fun ts => ∀ t ∈ ts, motive t) absent empty number signed binary name call
    command bracketed fraction (fun _ h => nomatch h)
    (fun _ _ ht hts _ h => (List.mem_cons.1 h).elim (fun e => e ▸ ht) (hts _)) t

def int (n : Int) : Term := number (.int n) absent

def height : Term → Nat
  | absent | empty | name _ | command _ _ | fraction _ => 1
  | number _ u => 1 + u.height
  | signed _ t => 1 + t.height
  | binary _ l r => 1 + max l.height r.height
  | call _ ts => 1 + heights ts
  | bracketed t => 1 + t.height
where
  heights : List Term → Nat
  | [] => 0
  | t :: ts => max t.height (heights ts)

end Term

/-- The symbol that the number one in a unit counts as. -/
def dimensionless : String := "1"

def Fraction.isDimensionless (f : Fraction) : Bool :=
  (f.numerator ++ f.denominator).all fun p => p.1 = dimensionless

end UnitCalculator
