import UnitCalculator.Session.Environment
import UnitCalculator.Term.Writing

/-!
Commands. They take the tokens between their parentheses one after the other, and what was taken
before a token is refused stays in effect.
-/

set_option autoImplicit false

namespace UnitCalculator

inductive CommandError where
  | outputFormat (token : Token)
  | debugArgument (token : Token)
  | debugArguments
  | notName (token : Token)
  | name (e : NameError)
  deriving DecidableEq

def CommandError.message : CommandError → String
  | outputFormat t => "output_format: unknown argument " ++ t.shown
  | debugArgument t => "debug: unknown argument " ++ t.shown
  | debugArguments => "debug: takes at most one argument"
  | notName t => "var: not a name: " ++ t.shown
  | name e => e.message

def CommandError.obstacle : CommandError → Option Obstacle
  | outputFormat t | debugArgument t | notName t => t.obstacle
  | debugArguments | name _ => none

namespace Command

def lowered (s : String) : String := s.map Char.toLower

def radixName? (s : String) : Option Radix :=
  if s = "dec" || s = "decimal" then some .decimal
  else if s = "hex" || s = "hexadecimal" then some .hexadecimal
  else if s = "oct" || s = "octal" then some .octal
  else if s = "bin" || s = "binary" then some .binary
  else none

def switch? (s : String) : Option Bool :=
  if s = "on" || s = "true" then some true
  else if s = "off" || s = "false" then some false
  else none

/-- The environment that a command leaves, and why it stopped, if it did. -/
abbrev Effect := Environment × Option CommandError

def outputSetting (env : Environment) (t : Token) : Option Environment :=
  match t with
  | .ident s => (radixName? (lowered s)).map fun r => { env with radix := r }
  | .int n => if 0 ≤ n then some { env with group := n.toNat } else none
  | _ => none

def outputSettings (env : Environment) : List Token → Effect
  | [] => (env, none)
  | t :: ts =>
    match outputSetting env t with
    | some env => outputSettings env ts
    | none => (env, some (.outputFormat t))

def setOutput (env : Environment) (ts : List Token) : Effect :=
  if ts.isEmpty then ({ env with radix := .decimal, group := 0 }, none)
  else outputSettings env ts

def switchToken? : Token → Option Bool
  | .ident s => switch? (lowered s)
  | .int n => if n = 0 then some false else if n = 1 then some true else none
  | _ => none

/-- No argument turns the trace over. -/
def setDebug (env : Environment) : List Token → Effect
  | [] => ({ env with debug := !env.debug }, none)
  | [t] =>
    match switchToken? t with
    | some b => ({ env with debug := b }, none)
    | none => (env, some (.debugArgument t))
  | _ => (env, some .debugArguments)

def declareAll (env : Environment) : List Token → Effect
  | [] => (env, none)
  | .ident s :: ts =>
    match env.declare s with
    | .ok env => declareAll env ts
    | .error e => (env, some (.name e))
  | t :: _ => (env, some (.notName t))

end Command
end UnitCalculator
