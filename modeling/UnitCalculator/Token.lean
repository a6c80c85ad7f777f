import UnitCalculator.Decimal.Layout
import UnitCalculator.Text.Quoted

/-!
Operators and tokens.
-/

set_option autoImplicit false

namespace UnitCalculator

/-- The operators of a line, and any other text in the place of one. -/
inductive Operator where
  | plus | minus | times | slash | percent | parallel | caret
  | openParen | closeParen | comma | openBracket | closeBracket | equals
  | other (text : String)
  deriving DecidableEq, Repr

namespace Operator

def text : Operator → String
  | plus => "+"
  | minus => "-"
  | times => "*"
  | slash => "/"
  | percent => "%"
  | parallel => "//"
  | caret => "^"
  | openParen => "("
  | closeParen => ")"
  | comma => ","
  | openBracket => "["
  | closeBracket => "]"
  | equals => "="
  | other t => t

def all : List Operator :=
  [parallel, plus, minus, times, slash, percent, caret, openParen, closeParen, comma, openBracket,
   closeBracket, equals]

def ofText (t : String) : Operator := (all.find? fun o => o.text == t).getD (other t)

theorem ofText_text {o : Operator} (h : o ∈ all) : ofText o.text = o := by
  revert o
  decide

end Operator

inductive Token where
  | int (n : Int)
  | float (x : Float)
  | op (o : Operator)
  | ident (name : String)
  deriving DecidableEq

namespace Token

def kind : Token → String
  | int _ => "int"
  | float _ => "float"
  | op _ => "op"
  | ident _ => "ident"

def shown : Token → String
  | int n => toString n
  | float x => floatText x
  | op o => Text.quoted o.text
  | ident name => Text.quoted name

def spelled (t : Token) : String :=
  "Token(kind=" ++ Text.quoted t.kind ++ ", value=" ++ t.shown ++ ")"

end Token

def describe : Option Token → String
  | none => "end of input"
  | some t => t.shown

end UnitCalculator
