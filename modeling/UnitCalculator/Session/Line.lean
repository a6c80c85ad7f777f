import UnitCalculator.Session.Evaluate

/-!
One line after the other in a session. A line finds the environment that the line before it has
left, whether that one had a result or failed.
-/

set_option autoImplicit false

namespace UnitCalculator

def runLine [Host] (k : Text.CharClasses) (env : Environment) (line : List Char) :
    Except Stop Value × Machine :=
  (calculate k line).run.run (Machine.start env)

def Environment.after [Host] (k : Text.CharClasses) (env : Environment) (line : List Char) :
    Environment :=
  (runLine k env line).2.env

/-- Only decimal digits are limited, and the exponents of a unit are decimal. -/
def Environment.displayObstacle (env : Environment) : Value → Option Obstacle
  | none => none
  | some q =>
    (if env.radix = .decimal then q.value.obstacle else none).or
      (if Display.isPlain (Evaluate.unitTerm q.unit) then none else unitObstacle q.unit)

def Environment.display (env : Environment) (v : Value) : Except Obstacle String :=
  match env.displayObstacle v with
  | none => .ok (Display.term env.radix env.group v.toTerm)
  | some o => .error o

end UnitCalculator
