import UnitCalculator.Token

/-!
Reading a list of tokens from left to right. A reader notes the rules it enters, and either fails
or results in a value and the place behind what it has read.
-/

set_option autoImplicit false

namespace UnitCalculator

inductive Expected where
  | closeParen
  | closeBracket
  | closeUnitParen
  | functionOpen (name : String)
  | functionClose (name : String)
  | commandOpen (name : String)
  deriving DecidableEq, Repr

inductive ParseError where
  | endOfInput
  | endOfUnit
  | unexpected (token : Token) (position : Nat)
  | unexpectedInUnit (token : Token)
  | leftOver (token : Token) (position : Nat)
  | notFound (expected : Expected) (token : Option Token) (position : Nat)
  | unclosedCommand (name : String)
  | unitExponent (token : Option Token)
  | tooDeep (limit : Int)
  deriving DecidableEq

def Expected.message : Expected → String
  | closeParen => "')' not found"
  | closeBracket => "']' not found"
  | closeUnitParen => "')' not found in unit"
  | functionOpen f => "function " ++ f ++ " has no '('"
  | functionClose f => "function " ++ f ++ " has no ')'"
  | commandOpen c => "command " ++ c ++ " has no '('"

def ParseError.message : ParseError → String
  | endOfInput => "Unexpected end of input"
  | endOfUnit => "Unexpected end of input in unit"
  | unexpected t n => "Unexpected token: " ++ t.shown ++ " at " ++ toString n
  | unexpectedInUnit t => "Unexpected token in unit: " ++ t.shown
  | leftOver t n => "Unexpected token left: " ++ t.shown ++ " at " ++ toString n
  | notFound e t n => e.message ++ ": got " ++ describe t ++ " at " ++ toString n
  | unclosedCommand c => "command " ++ c ++ " has no ')'"
  | unitExponent t => "Unit exponent must be an integer: got " ++ describe t
  | tooDeep limit => "Expression nested too deeply (limit " ++ toString limit ++ ")"

inductive Rule where
  | assign | expr | mul | unary | power | primary | number | unit
  | identifier (name : String)
  deriving DecidableEq, Repr

def Rule.name : Rule → String
  | assign => "assign"
  | expr => "expr"
  | mul => "mul"
  | unary => "unary"
  | power => "power"
  | primary => "primary"
  | number => "number"
  | unit => "unit"
  | identifier s => "identifier " ++ s

structure Visit where
  rule : Rule
  next : Option Token
  position : Nat
  deriving DecidableEq

def Visit.line (v : Visit) : String :=
  v.rule.name ++ " " ++ describe v.next ++ " at " ++ toString v.position

structure Cursor where
  position : Nat
  rest : List Token
  deriving DecidableEq

def Cursor.advance (c : Cursor) (n : Nat) : Cursor := ⟨c.position + n, c.rest.drop n⟩

structure Reading (α : Type) where
  visits : List Visit
  outcome : Except ParseError (α × Cursor)

def Reader (α : Type) := Cursor → Reading α

namespace Reader

variable {α β : Type}

/-- Where nothing comes after them, visits are not copied. -/
def joinVisits (v w : List Visit) : List Visit := if w.isEmpty then v else v ++ w

@[simp] theorem joinVisits_eq (v w : List Visit) : joinVisits v w = v ++ w := by
  cases w <;> simp [joinVisits]

protected def pure (a : α) : Reader α := fun c => ⟨[], .ok (a, c)⟩

def fail (e : ParseError) : Reader α := fun _ => ⟨[], .error e⟩

protected def bind (p : Reader α) (f : α → Reader β) : Reader β := fun c =>
  match p c with
  | ⟨v, .error e⟩ => ⟨v, .error e⟩
  | ⟨v, .ok (a, c)⟩ =>
    let r := f a c
    ⟨joinVisits v r.visits, r.outcome⟩

instance : Monad Reader where
  pure := Reader.pure
  bind := Reader.bind

def result (p : Reader α) (c : Cursor) : Except ParseError (α × Cursor) := (p c).outcome

@[simp] theorem result_pure (a : α) (c : Cursor) :
    result (Pure.pure a : Reader α) c = .ok (a, c) := rfl

@[simp] theorem result_fail (e : ParseError) (c : Cursor) :
    result (fail e : Reader α) c = .error e := rfl

@[simp] theorem result_bind (p : Reader α) (f : α → Reader β) (c : Cursor) :
    result (p >>= f) c = (result p c).bind fun r => result (f r.1) r.2 := by
  simp only [result, Bind.bind, Reader.bind]
  cases h : p c with
  | mk v o =>
    cases o with
    | error e => rfl
    | ok r => rfl

def visit (r : Rule) : Reader Unit := fun c => ⟨[⟨r, c.rest.head?, c.position⟩], .ok ((), c)⟩

@[simp] theorem result_visit (r : Rule) (c : Cursor) : result (visit r) c = .ok ((), c) := rfl

def peek : Reader (Option Token) := fun c => ⟨[], .ok (c.rest.head?, c)⟩

@[simp] theorem result_peek (c : Cursor) : result peek c = .ok (c.rest.head?, c) := rfl

def remaining : Reader Nat := fun c => ⟨[], .ok (c.rest.length, c)⟩

@[simp] theorem result_remaining (c : Cursor) :
    result remaining c = .ok (c.rest.length, c) := rfl

def skip (n : Nat) : Reader Unit := fun c => ⟨[], .ok ((), c.advance n)⟩

@[simp] theorem result_skip (n : Nat) (c : Cursor) :
    result (skip n) c = .ok ((), c.advance n) := rfl

def take? (f : Token → Option α) : Reader (Option α) := fun c =>
  match c.rest with
  | [] => ⟨[], .ok (none, c)⟩
  | t :: r =>
    match f t with
    | none => ⟨[], .ok (none, c)⟩
    | some a => ⟨[], .ok (some a, ⟨c.position + 1, r⟩)⟩

theorem result_take? (f : Token → Option α) (c : Cursor) :
    result (take? f) c = match c.rest with
      | [] => .ok (none, c)
      | t :: r => match f t with
        | none => .ok (none, c)
        | some a => .ok (some a, ⟨c.position + 1, r⟩) := by
  unfold result take?
  split <;> (try split) <;> rfl

def operator? (p : Operator → Bool) : Reader (Option Operator) :=
  take? fun
    | .op o => if p o then some o else none
    | _ => none

def accepts (o : Operator) : Reader Bool := do return (← operator? (· == o)).isSome

theorem result_accepts (o : Operator) (c : Cursor) :
    result (accepts o) c = match c.rest with
      | .op p :: r => if p = o then .ok (true, ⟨c.position + 1, r⟩) else .ok (false, c)
      | _ => .ok (false, c) := by
  obtain ⟨n, ts⟩ := c
  cases ts with
  | nil => rfl
  | cons t r =>
    cases t with
    | op p =>
      simp only [accepts, operator?, result_bind, result_take?, beq_iff_eq]
      by_cases h : p = o <;> simp [h, Except.bind]
    | _ => rfl

def expect (o : Operator) (e : Expected) : Reader Unit := fun c =>
  match c.rest with
  | .op p :: r =>
    if p = o then ⟨[], .ok ((), ⟨c.position + 1, r⟩)⟩
    else ⟨[], .error (.notFound e (some (.op p)) c.position)⟩
  | r => ⟨[], .error (.notFound e r.head? c.position)⟩

theorem result_expect (o : Operator) (e : Expected) (c : Cursor) :
    result (expect o e) c =
      if c.rest.head? = some (.op o) then .ok ((), ⟨c.position + 1, c.rest.tail⟩)
      else .error (.notFound e c.rest.head? c.position) := by
  obtain ⟨n, ts⟩ := c
  cases ts with
  | nil => rfl
  | cons t r =>
    cases t with
    | op p => by_cases h : p = o <;> simp [expect, result, h]
    | _ => simp [expect, result]

end Reader
end UnitCalculator
