import UnitCalculator.ComplexFloat.Elementary
import UnitCalculator.Display
import UnitCalculator.Session.Function
import UnitCalculator.Session.Table
import UnitCalculator.Grammar.Rules

/-!
What a session knows: names with their meanings, and the settings of output and trace. Constants
and variables are apart, and a name that is both is the constant.
-/

set_option autoImplicit false

namespace UnitCalculator

inductive Command where
  | outputFormat | debug | declare | leave
  deriving DecidableEq, Repr

def Command.all : List Command := [outputFormat, debug, declare, leave]

def Command.name : Command → String
  | outputFormat => "output_format"
  | debug => "debug"
  | declare => "var"
  | leave => "exit"

structure Environment where
  constants : Table Term
  /-- A variable that is declared has a place here before it has a value. -/
  bindings : Table (Option Term)
  functions : Table Function
  commands : Table Command
  debug : Bool
  radix : Radix
  /-- The size of a group of digits, zero for none. -/
  group : Nat
  maxDepth : Int

inductive NameError where
  | declareConstant (name : String)
  | assignConstant (name : String)
  | assignUndeclared (name : String)
  | noValue (name : String)
  | unknown (name : String)
  deriving DecidableEq, Repr

def NameError.message : NameError → String
  | declareConstant s => "Cannot declare constant " ++ Text.quoted s ++ " as a variable"
  | assignConstant s => "Attempting to assign to constant " ++ Text.quoted s
  | assignUndeclared s => "Attempting to assign to undeclared variable " ++ Text.quoted s
  | noValue s => "Variable " ++ Text.quoted s ++ " has no value yet"
  | unknown s => "Unknown identifier " ++ Text.quoted s

namespace Environment

def defaultDepth : Int := 100

def blank : Environment where
  constants := []
  bindings := []
  functions := []
  commands := []
  debug := false
  radix := .decimal
  group := 0
  maxDepth := defaultDepth

def epsilon : Float := 2.220446049250313e-16

def imaginaryUnit : Term := .number (.complex ⟨0, 1⟩) .absent

def real (x : Float) : Term := .number (.real x) .absent

def builtinConstants : Table Term :=
  [("pi", real pi), ("e", real eulerNumber), ("eps", real epsilon), ("i", imaginaryUnit),
   ("j", imaginaryUnit)]

def withBuiltins (env : Environment) : Environment :=
  { env with
    constants := builtinConstants
    functions := Function.all.map fun f => (f.name, f)
    commands := Command.all.map fun c => (c.name, c) }

def fresh : Environment := blank.withBuiltins

def isConstant (env : Environment) (s : String) : Bool := env.constants.has s

def isVariable (env : Environment) (s : String) : Bool := env.bindings.has s

def isFunction (env : Environment) (s : String) : Bool := env.functions.has s

def isCommand (env : Environment) (s : String) : Bool := env.commands.has s

def grammarNames (env : Environment) : Names := ⟨env.isConstant, env.isFunction, env.isCommand⟩

def addConstant (env : Environment) (s : String) (value : Term) : Environment :=
  { env with constants := env.constants.set s value }

/-- Declaring again keeps the value. -/
def declare (env : Environment) (s : String) : Except NameError Environment :=
  if env.isConstant s then .error (.declareConstant s)
  else if env.isVariable s then .ok env
  else .ok { env with bindings := env.bindings.set s none }

def checkAssignable (env : Environment) (s : String) : Except NameError Unit :=
  if env.isConstant s then .error (.assignConstant s)
  else if env.isVariable s then .ok ()
  else .error (.assignUndeclared s)

def assign (env : Environment) (s : String) (value : Term) : Except NameError Environment := do
  env.checkAssignable s
  .ok { env with bindings := env.bindings.set s (some value) }

def lookup (env : Environment) (s : String) : Except NameError Term :=
  match env.constants.get? s with
  | some t => .ok t
  | none =>
    match env.bindings.get? s with
    | some (some t) => .ok t
    | some none => .error (.noValue s)
    | none => .error (.unknown s)

def insertName (s : String) : List String → List String
  | [] => [s]
  | t :: r => if s < t then s :: t :: r else if s = t then t :: r else t :: insertName s r

def allNames (env : Environment) : List String :=
  (env.constants.names ++ env.bindings.names ++ env.functions.names ++ env.commands.names).foldl
    (fun r s => insertName s r) []

/-- The variables in order; one without a value is shown as no value. -/
def values (env : Environment) : Table Term :=
  env.bindings.sorted.map fun p => (p.1, p.2.getD .empty)

end Environment
end UnitCalculator
