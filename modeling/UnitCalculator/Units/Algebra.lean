import UnitCalculator.Term

/-!
Products, quotients and powers of units as terms. No unit at all is the unit of plain numbers, so
it is neutral.
-/

set_option autoImplicit false

namespace UnitCalculator.Units

def unwrap : Term → Term
  | .bracketed t => unwrap t
  | t => t

def multiply (u v : Term) : Term :=
  match unwrap u, unwrap v with
  | .absent, v => v
  | u, .absent => u
  | u, v => .binary .times u v

def divide (u v : Term) : Term :=
  match unwrap u, unwrap v with
  | u, .absent => u
  | .absent, v => .binary .slash (.int 1) v
  | u, v => .binary .slash u v

def power (u : Term) (n : Int) : Term :=
  match unwrap u with
  | .absent => .absent
  | u =>
    if n = 0 then .absent
    else if n < 0 then divide .absent (.binary .caret u (.int (-n)))
    else .binary .caret u (.int n)

end UnitCalculator.Units
