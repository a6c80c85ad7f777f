import UnitCalculator.Session.Run

/-!
The value of a term in a session. Operands are evaluated from left to right; an assignment takes
effect as soon as its value is known. A command has an effect and no value.
-/

set_option autoImplicit false

namespace UnitCalculator

/-- A number with its unit, or nothing, as of a command. -/
abbrev Value := Option Quantity

def Value.toTerm : Value → Term
  | none => .empty
  | some q => q.toTerm

namespace Evaluate

def unitTerm : Option Fraction → Term
  | none => .absent
  | some f => .fraction f

def isBinary (o : Operator) : Bool :=
  o = .plus || o = .minus || o = .times || o = .slash || o = .percent || o = .caret || o = .parallel

variable [Host]

open Run

def checkHeight (t : Term) : Run Unit :=
  if Host.evaluation < t.height then failWith .tooDeep else pure ()

def canonical (a : Number) (u : Term) : Run Quantity := do
  match u with
  | .absent => pure ()
  | u => note (.canonicalization a u)
  orUnitError (Units.canonicalize a u)

def operand (operation : String) : Value → Run Quantity
  | some q => pure q
  | none => failWith (.noValue operation)

def sameUnit (o : Operator) (p q : Quantity) : Run (Option Fraction) :=
  if p.unit = q.unit then pure p.unit else failWith (.incompatibleUnits o p.unit q.unit)

def uniform (o : Operator) (f : Number → Number → Except Fault Number) (p q : Quantity) :
    Run Quantity := do
  let u ← sameUnit o p q
  return ⟨← orFault (f p.value q.value), u⟩

def multiply (p q : Quantity) : Run Quantity := do
  let a ← orFault (p.value.mul q.value)
  canonical a (Units.multiply (unitTerm p.unit) (unitTerm q.unit))

def divide (p q : Quantity) : Run Quantity := do
  let a ← orFault (p.value.div q.value)
  canonical a (Units.divide (unitTerm p.unit) (unitTerm q.unit))

def power (p q : Quantity) : Run Quantity := do
  match q.unit with
  | some u => failWith (.exponentUnit u)
  | none =>
    let a ← orFault (p.value.pow q.value)
    match p.unit with
    | none => return ⟨a, none⟩
    | some u =>
      match q.value with
      | .int n => canonical a (Units.power (.fraction u) n)
      | b => failWith (.fractionalPower u b)

def combine (o : Operator) (p q : Quantity) : Run Quantity :=
  match o with
  | .plus => uniform o Number.add p q
  | .minus => uniform o Number.sub p q
  | .times => multiply p q
  | .slash => divide p q
  | .percent => uniform o Number.mod p q
  | .caret => power p q
  | .parallel => uniform o Number.parallel p q
  | o => failWith (.unknownOperator o)

def binary (o : Operator) (l r : Value) : Run Quantity := do
  let p ← operand o.text l
  let q ← operand o.text r
  if isBinary o then note (.operation o p q)
  combine o p q

def sign (o : Operator) (v : Value) : Run Quantity := do
  let q ← operand o.text v
  match o with
  | .plus => return q
  | .minus => return { q with value := ← orFault q.value.neg }
  | o => failWith (.unknownSign o)

def target (t : Term) : Run String := do
  match t with
  | .name s =>
    orNameError ((← environment).checkAssignable s)
    return s
  | t => failWith (.notAssignable t)

def store (s : String) (v : Value) : Run Quantity := do
  let q ← operand Operator.equals.text v
  let q := { q with value := q.value.widened }
  setEnvironment (← orNameError ((← environment).assign s q.toTerm))
  return q

def function (s : String) (given : Nat) : Run Function := do
  match (← environment).functions.get? s with
  | none => failWith (.unknownFunction s)
  | some f =>
    match f.arity with
    | some n => if given = n then return f else failWith (.arity s n given)
    | none => return f

def apply (s : String) (f : Function) (args : List Number) : Run Quantity :=
  match f.apply args with
  | some a => return ⟨a, none⟩
  | none => failWith (.noFunctionValue s)

def command (s : String) (ts : List Token) : Run Unit := do
  let env ← environment
  match env.commands.get? s with
  | none => failWith (.unknownCommand s)
  | some .outputFormat => afterEffect (Command.setOutput env ts)
  | some .debug => afterEffect (Command.setDebug env ts)
  | some .declare => afterEffect (Command.declareAll env ts)
  | some .leave => throw .exit

end Evaluate

variable [Host]

open Evaluate Run in
/-- The value of a term, with `n` levels of nesting left. A name is one level above its meaning. -/
def evaluateWithin : Nat → Term → Run Value
  | 0, _ => failWith .tooDeep
  | n + 1, t => do
    note (.evaluation t)
    match t with
    | .absent => failWith (.notEvaluable .absent)
    | .empty => return none
    | .number a u =>
      checkHeight u
      return some (← canonical a u)
    | .signed o t => return some (← sign o (← evaluateWithin n t))
    | .binary .equals l r => do
      let s ← target l
      let v ← evaluateWithin n r
      return some (← store s v)
    | .binary o l r => do
      let v ← evaluateWithin n l
      let w ← evaluateWithin n r
      return some (← binary o v w)
    | .name s => do
      let t ← orNameError ((← environment).lookup s)
      evaluateWithin n t
    | .call s ts => do
      let f ← function s ts.length
      let args ← ts.mapM fun t => do return (← operand s (← evaluateWithin n t)).value.widened
      return some (← apply s f args)
    | .command s ts => do
      command s ts
      return none
    | .bracketed t => failWith (.unitWithoutValue (.bracketed t))
    | .fraction f => failWith (.unitWithoutValue (.fraction f))

def evaluate (t : Term) : Run Value := evaluateWithin Host.evaluation t

open Run in
def calculate (k : Text.CharClasses) (line : List Char) : Run Value := do
  notes fun _ => tokenTrace (lexemes k line)
  match tokenize k line with
  | .error e => throw (.failure (.lex e))
  | .ok [] => return none
  | .ok ts =>
    let env ← environment
    let reading := parseWithVisits env.grammarNames env.maxDepth ts
    notes fun _ => reading.visits.map Visit.line
    match reading.outcome with
    | .error e => throw (.failure (.parse e))
    | .ok (t, _) => evaluate t

end UnitCalculator
