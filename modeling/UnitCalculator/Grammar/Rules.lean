import UnitCalculator.Grammar.Reader
import UnitCalculator.Grammar.Scale
import UnitCalculator.Term

/-!
The grammar of a line, lowest precedence first:

    assign  ::= expr ( '=' expr )?
    expr    ::= mul ( ( '+' | '-' ) mul )*
    mul     ::= unary ( ( '*' | '/' | '%' | '//' ) unary )*
    unary   ::= ( '-' | '+' ) unary | power
    power   ::= primary ( '^' unary )?
    primary ::= number | '(' expr ')' | name
              | function '(' ( expr ( ',' expr )* )? ')'
              | command '(' token* ')'
    number  ::= literal prefix? ( 'i' | 'j' )? ( '[' unit ']' )?

    unit    ::= uterm ( ( '*' | '/' ) uterm )*
    uterm   ::= uatom ( '^' int )?
    uatom   ::= symbol | '1' | '(' unit ')'

Nesting is limited. An operator counts as a level as well, since it makes the term higher; so the
rules are functions of the rules one level further in, and the whole grammar is a recursion on
the levels that are left.
-/

set_option autoImplicit false

namespace UnitCalculator

/-- What a name is taken for: a constant, else a function, else a command, else a variable. -/
structure Names where
  isConstant : String → Bool
  isFunction : String → Bool
  isCommand : String → Bool

namespace Grammar

open Reader

inductive Entry where
  | sum
  | sumAfter (lhs : Term)
  | product
  | productAfter (lhs : Term)
  | unary
  | unit
  | unitTerm
  | unitAfter (lhs : Term)

abbrev Inner := Entry → Reader Term

def isAdditive (o : Operator) : Bool := o = .plus || o = .minus

def isMultiplicative (o : Operator) : Bool :=
  o = .times || o = .slash || o = .percent || o = .parallel

def isUnitOperator (o : Operator) : Bool := o = .times || o = .slash

def unit (inner : Inner) : Reader Term := do
  visit .unit
  inner .unit

def symbol? : Token → Option Term
  | .ident s => some (.name s)
  | .int n => if n = 1 then some (.int n) else none
  | _ => none

def unitAtom (inner : Inner) : Reader Term := do
  match ← take? symbol? with
  | some u => return u
  | none =>
    if ← accepts .openParen then
      let u ← unit inner
      expect .closeParen .closeUnitParen
      return u
    else
      match ← peek with
      | none => fail .endOfUnit
      | some t => fail (.unexpectedInUnit t)

def unitTerm (inner : Inner) : Reader Term := do
  let u ← unitAtom inner
  if ← accepts .caret then
    match ← take? (fun | .int n => some n | _ => none) with
    | some n => return .binary .caret u (.int n)
    | none => fail (.unitExponent (← peek))
  else return u

def unitAfter (inner : Inner) (lhs : Term) : Reader Term := do
  match ← operator? isUnitOperator with
  | none => return lhs
  | some o =>
    let rhs ← inner .unitTerm
    inner (.unitAfter (.binary o lhs rhs))

def bracketedUnit (inner : Inner) : Reader Term := do
  if ← accepts .openBracket then
    let u ← unit inner
    expect .closeBracket .closeBracket
    return .bracketed u
  else return .absent

inductive Suffix where
  | scaled (factor : Float)
  | imaginary (factor : Float)

/-- Constants win: in `2 pi` there is no prefix. -/
def suffix? (names : Names) : Token → Option Suffix
  | .ident s =>
    match prefixName? s with
    | some f => some (.scaled f)
    | none =>
      match prefixedImaginary? s with
      | some f => if names.isConstant s then none else some (.imaginary f)
      | none => none
  | _ => none

def imaginary? : Token → Option Unit
  | .ident s => if isImaginaryName s then some () else none
  | _ => none

def literal? : Token → Option Number
  | .int n => some (.int n)
  | .float x => some (.real x)
  | _ => none

def literalValue (a : Number) : Option Suffix → Bool → Number
  | none, false => a
  | none, true => .complex ⟨0, a.toComplex.re⟩
  | some (.scaled f), false => a.scale f
  | some (.scaled f), true | some (.imaginary f), _ => .complex ⟨0, (a.scale f).toComplex.re⟩

def number (names : Names) (inner : Inner) (a : Number) : Reader Term := do
  visit .number
  skip 1
  let suffix ← take? (suffix? names)
  let imaginary ← match suffix with
    | some (.imaginary _) => pure none
    | _ => take? imaginary?
  let u ← bracketedUnit inner
  return .number (literalValue a suffix imaginary.isSome) u

def expr (inner : Inner) : Reader Term := do
  visit .expr
  inner .sum

/-- The arguments behind the first; each takes a comma, so there are no more than tokens. -/
def moreArguments (inner : Inner) : Nat → Reader (List Term)
  | 0 => return []
  | n + 1 => do
    if ← accepts .comma then
      let t ← expr inner
      return t :: (← moreArguments inner n)
    else return []

def arguments (inner : Inner) (f : String) : Reader (List Term) := do
  expect .openParen (.functionOpen f)
  if ← accepts .closeParen then return []
  else
    let t ← expr inner
    let ts ← moreArguments inner (← remaining)
    expect .closeParen (.functionClose f)
    return t :: ts

/-- The tokens before the first closing parenthesis, less the commas, and the tokens behind it. -/
def beforeClose : List Token → Option (List Token × List Token)
  | [] => none
  | t :: r =>
    if t = .op .closeParen then some ([], r)
    else (beforeClose r).map fun p => (if t = .op .comma then p.1 else t :: p.1, p.2)

def commandArguments (c : String) : Reader (List Token) := do
  expect .openParen (.commandOpen c)
  fun k =>
    match beforeClose k.rest with
    | none => ⟨[], .error (.unclosedCommand c)⟩
    | some (ts, r) => ⟨[], .ok (ts, ⟨k.position + (k.rest.length - r.length), r⟩)⟩

def named (names : Names) (inner : Inner) (s : String) : Reader Term := do
  skip 1
  visit (.identifier s)
  if names.isConstant s then return .name s
  else if names.isFunction s then return .call s (← arguments inner s)
  else if names.isCommand s then return .command s (← commandArguments s)
  else return .name s

def primary (names : Names) (inner : Inner) : Reader Term := do
  visit .primary
  match ← peek with
  | none => fail .endOfInput
  | some (.int n) => number names inner (.int n)
  | some (.float x) => number names inner (.real x)
  | some (.ident s) => named names inner s
  | some (.op .openParen) =>
    skip 1
    let t ← expr inner
    expect .closeParen .closeParen
    return t
  | some t => fun c => ⟨[], .error (.unexpected t c.position)⟩

def power (names : Names) (inner : Inner) : Reader Term := do
  visit .power
  let base ← primary names inner
  if ← accepts .caret then return .binary .caret base (← inner .unary)
  else return base

def unary (names : Names) (inner : Inner) : Reader Term := do
  visit .unary
  match ← operator? isAdditive with
  | some o => return .signed o (← inner .unary)
  | none => power names inner

def productAfter (inner : Inner) (lhs : Term) : Reader Term := do
  match ← operator? isMultiplicative with
  | none => return lhs
  | some o =>
    let rhs ← inner .unary
    inner (.productAfter (.binary o lhs rhs))

def product (names : Names) (inner : Inner) : Reader Term := do
  visit .mul
  let t ← unary names inner
  productAfter inner t

def sumAfter (inner : Inner) (lhs : Term) : Reader Term := do
  match ← operator? isAdditive with
  | none => return lhs
  | some o =>
    let rhs ← inner .product
    inner (.sumAfter (.binary o lhs rhs))

def level (names : Names) (inner : Inner) : Entry → Reader Term
  | .sum => do
    let t ← product names inner
    sumAfter inner t
  | .sumAfter lhs => sumAfter inner lhs
  | .product => product names inner
  | .productAfter lhs => productAfter inner lhs
  | .unary => unary names inner
  | .unit => do
    let u ← unitTerm inner
    unitAfter inner u
  | .unitTerm => unitTerm inner
  | .unitAfter lhs => unitAfter inner lhs

/-- The rules with `n` levels left; with none, whatever is entered is refused. -/
def within (names : Names) (limit : Int) : Nat → Inner
  | 0 => fun _ => fail (.tooDeep limit)
  | n + 1 => level names (within names limit n)

def assign (inner : Inner) : Reader Term := do
  visit .assign
  let lhs ← expr inner
  if ← accepts .equals then return .binary .equals lhs (← expr inner)
  else return lhs

def line (names : Names) (limit : Int) : Reader Term := do
  let t ← assign (within names limit limit.toNat)
  fun c =>
    match c.rest with
    | [] => ⟨[], .ok (t, c)⟩
    | u :: _ => ⟨[], .error (.leftOver u c.position)⟩

end Grammar

def parseWithVisits (names : Names) (limit : Int) (ts : List Token) : Reading Term :=
  Grammar.line names limit ⟨0, ts⟩

def parse (names : Names) (limit : Int) (ts : List Token) : Except ParseError Term :=
  (parseWithVisits names limit ts).outcome.map (·.1)

end UnitCalculator
