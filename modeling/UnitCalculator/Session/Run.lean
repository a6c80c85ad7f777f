import UnitCalculator.Session.Failure

/-!
Computations in a session. They change the environment and, while it asks for a trace, write
lines of it; both outlast a failure. A computation can also leave the session, and a line of the
trace that cannot be written ends it.
-/

set_option autoImplicit false

namespace UnitCalculator

structure Machine where
  env : Environment
  /-- The lines of the trace, the last one first. -/
  trace : List String

def Machine.start (env : Environment) : Machine := ⟨env, []⟩

inductive Stop where
  | exit
  | failure (f : Failure)

abbrev Run := ExceptT Stop (StateM Machine)

inductive Remark where
  | evaluation (t : Term)
  | canonicalization (a : Number) (u : Term)
  | operation (o : Operator) (p q : Quantity)

namespace Remark

def line : Remark → String
  | evaluation t => "eval " ++ t.spelled
  | canonicalization a u => "units canonicalize " ++ (Term.number a u).spelled
  | operation o p q =>
    "binop " ++ p.toTerm.spelled ++ " " ++ o.text ++ " " ++ q.toTerm.spelled

def terms : Remark → List Term
  | evaluation t => [t]
  | canonicalization a u => [.number a u]
  | operation _ p q => [p.toTerm, q.toTerm]

def obstacle [Host] (r : Remark) : Option Obstacle :=
  r.terms.findSome? fun t => t.obstacle Host.writing

end Remark

namespace Run

variable {α : Type}

def environment : Run Environment := do return (← get).env

def setEnvironment (env : Environment) : Run Unit := modify fun m => { m with env := env }

/-- The line is made only if the trace wants it. -/
def note [Host] (r : Remark) : Run Unit := do
  if (← environment).debug then
    match r.obstacle with
    | none => modify fun m => { m with trace := r.line :: m.trace }
    | some o => throw (.failure o.failure)

/-- Lines about the tokens of a text, whose integers are short. -/
def notes (lines : Unit → List String) : Run Unit :=
  modify fun m => if m.env.debug then { m with trace := (lines ()).reverse ++ m.trace } else m

def failWith [Host] (e : EvalError) : Run α := throw (.failure e.failure)

def orUnitError [Host] : Except UnitError α → Run α
  | .ok a => pure a
  | .error e => failWith (.unit e)

def orNameError [Host] : Except NameError α → Run α
  | .ok a => pure a
  | .error e => failWith (.name e)

def orFault [Host] : Except Fault α → Run α
  | .ok a => pure a
  | .error e => failWith (.arithmetic e)

/-- What a command leaves stays, also when the command has failed. -/
def afterEffect [Host] (e : Command.Effect) : Run Unit := do
  setEnvironment e.1
  match e.2 with
  | none => pure ()
  | some c => failWith (.command c)

end Run
end UnitCalculator
