import UnitCalculator.Scan
import UnitCalculator.Session.Command
import UnitCalculator.Units.Canonical

/-!
Everything that can be wrong with a line, by the stage that finds it, and the message for each. A
message that the host cannot write is a failure of its own.
-/

set_option autoImplicit false

namespace UnitCalculator

inductive EvalError where
  | unit (e : UnitError)
  | name (e : NameError)
  | command (e : CommandError)
  | arithmetic (f : Fault)
  | noValue (operation : String)
  | unknownOperator (o : Operator)
  | unknownSign (o : Operator)
  | incompatibleUnits (o : Operator) (lhs rhs : Option Fraction)
  | exponentUnit (u : Fraction)
  | fractionalPower (u : Fraction) (exponent : Number)
  | unitWithoutValue (t : Term)
  | notEvaluable (t : Term)
  | notAssignable (t : Term)
  | unknownFunction (f : String)
  | arity (f : String) (takes given : Nat)
  | noFunctionValue (f : String)
  | unknownCommand (c : String)
  | tooDeep

def unitText : Option Fraction → String
  | none => "None"
  | some f => f.spelled

def Fault.message : Fault → String
  | overflow => "Integer overflow: result does not fit in 128 bits"
  | zeroDivisor => "Division by zero"
  | power => "Arithmetic error in pow"

def EvalError.message : EvalError → String
  | unit e => e.message
  | name e => e.message
  | command e => e.message
  | arithmetic f => f.message
  | noValue s => "Operand of " ++ Text.quoted s ++ " has no value"
  | unknownOperator o => "Unknown operator " ++ Text.quoted o.text
  | unknownSign o => "Unknown unary operator " ++ Text.quoted o.text
  | incompatibleUnits o u v =>
    "Incompatible units for " ++ Text.quoted o.text ++ ": " ++ unitText u ++ " and " ++ unitText v
  | exponentUnit u => "Exponent must be dimensionless: " ++ u.spelled
  | fractionalPower u a =>
    "Unit " ++ u.spelled ++ " raised to non-integer power " ++ a.text
  | unitWithoutValue t => "Unit without a value: " ++ t.spelled
  | notEvaluable t => "Cannot evaluate " ++ t.spelled
  | notAssignable t => "Can only assign to a variable, not " ++ t.spelled
  | unknownFunction f => "Unknown function " ++ Text.quoted f
  | arity f m n =>
    "Function " ++ f ++ " takes " ++ toString m ++ " argument(s), " ++ toString n ++ " given"
  | noFunctionValue f => "Error calling " ++ f
  | unknownCommand c => "Unknown command " ++ Text.quoted c
  | tooDeep => "Expression nested too deeply"

def EvalError.obstacle [Host] : EvalError → Option Obstacle
  | unit e => e.obstacle
  | command e => e.obstacle
  | incompatibleUnits _ u v => (unitObstacle u).or (unitObstacle v)
  | exponentUnit u | fractionalPower u _ => u.obstacle
  | unitWithoutValue t | notEvaluable t | notAssignable t => t.obstacle Host.writing
  | _ => none

inductive Failure where
  | lex (e : LexError)
  | parse (e : ParseError)
  | eval (e : EvalError)
  /-- A text that is to be written cannot be. -/
  | unwritten (o : Obstacle)

def Failure.message : Failure → String
  | lex e => e.message
  | parse e => e.message
  | eval e => e.message
  | unwritten o => o.message

/-- What evaluation makes of it: only the end of the stack is an error of its own. -/
def Obstacle.failure : Obstacle → Failure
  | tooDeep => .eval .tooDeep
  | tooLong => .unwritten .tooLong

/-- The failure in place of an error: its message has to be written first. -/
def EvalError.failure [Host] (e : EvalError) : Failure :=
  match e.obstacle with
  | none => .eval e
  | some o => o.failure

/-- The stage that a failure belongs to. A scale factor of a unit that is no float, and a text that
cannot be written, are failures of the host: no stage has an error for them. -/
inductive FailureKind where
  | lex | parse | eval | host
  deriving DecidableEq, Repr

def UnitError.isScaleFault : UnitError → Bool
  | scaleVanished | scalePower => true
  | _ => false

def EvalError.isScaleFault : EvalError → Bool
  | unit e => e.isScaleFault
  | _ => false

def Failure.kind : Failure → FailureKind
  | lex _ => .lex
  | parse _ => .parse
  | eval e => if e.isScaleFault then .host else .eval
  | unwritten _ => .host

end UnitCalculator
