/-!
The host that a session runs on. Its stack bounds how high a term can be evaluated, and how high
one can be written out: a level takes more of the stack when it is written.
-/

set_option autoImplicit false

namespace UnitCalculator

/-- How many levels of a term the stack holds, at least the nesting that a line has by default. -/
class Host where
  evaluation : Nat
  writing : Nat
  evaluation_ge : 100 ≤ evaluation
  writing_ge : 100 ≤ writing

instance (priority := low) Host.standard : Host where
  evaluation := 900
  writing := 330
  evaluation_ge := by decide
  writing_ge := by decide

end UnitCalculator
