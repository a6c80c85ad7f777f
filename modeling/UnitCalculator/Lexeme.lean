import UnitCalculator.Text.Letters
import UnitCalculator.Token

/-!
A line is cut into lexemes, each the longest that starts where the one before it ends. Nothing is
lost: the lexemes of a text concatenate to it. A character that starts no lexeme of a named group
is a lexeme of its own.
-/

set_option autoImplicit false

namespace UnitCalculator

open Text

def isDigitOrLowLine (c : Char) : Bool := isAsciiDigit c || c = '_'

/-- What may stand after `0x` or `0b`. Digits beyond the radix are refused later. -/
def isHexOrLowLine (c : Char) : Bool :=
  isDigitOrLowLine c || ('a' ≤ c && c ≤ 'f') || ('A' ≤ c && c ≤ 'F')

def isExponentMark (c : Char) : Bool := c = 'e' || c = 'E'

def isSign (c : Char) : Bool := c = '+' || c = '-'

def isRadixMark (c : Char) : Bool := c = 'x' || c = 'X' || c = 'b' || c = 'B'

def isOperatorChar (c : Char) : Bool := "+-*/%^(),[]=".toList.contains c

inductive Group where
  | radix | float | octal | decimal | operator | identifier | space | other
  deriving DecidableEq, Repr

namespace Group

def name : Group → String
  | radix => "radix"
  | float => "float"
  | octal => "octal"
  | decimal => "decimal"
  | operator => "operator"
  | identifier => "identifier"
  | space => "space"
  | other => "other"

def run (p : Char → Bool) (t : List Char) : Nat := (t.takeWhile p).length

/-- `0x1f`, `0b1010`; the digits may be missing. -/
def radixReach : List Char → Nat
  | '0' :: m :: t => if isRadixMark m then 2 + run isHexOrLowLine t else 0
  | _ => 0

/-- An exponent mark, a sign and digits, of which only the mark is needed. -/
def exponentReach : List Char → Nat
  | c :: t =>
    if isExponentMark c then
      match t with
      | s :: u => if isSign s then 2 + run isDigitOrLowLine u else 1 + run isDigitOrLowLine t
      | [] => 1
    else 0
  | [] => 0

def floatReach : List Char → Nat
  | [] => 0
  | c :: t =>
    if isAsciiDigit c then
      let whole := 1 + run isDigitOrLowLine t
      match t.drop (whole - 1) with
      | '.' :: u =>
        let fraction := run isDigitOrLowLine u
        whole + 1 + fraction + exponentReach (u.drop fraction)
      | u => if 0 < exponentReach u then whole + exponentReach u else 0
    else 0

def octalReach : List Char → Nat
  | '0' :: t => if 0 < run isDigitOrLowLine t then 1 + run isDigitOrLowLine t else 0
  | _ => 0

def decimalReach : List Char → Nat
  | [] => 0
  | c :: t => if c = '0' then 1 else if isAsciiDigit c then 1 + run isDigitOrLowLine t else 0

def operatorReach : List Char → Nat
  | '/' :: '/' :: _ => 2
  | c :: _ => if isOperatorChar c then 1 else 0
  | [] => 0

def identifierReach (k : CharClasses) : List Char → Nat
  | [] => 0
  | c :: t => if k.letter c then 1 + run k.word t else 0

def reach (k : CharClasses) : Group → List Char → Nat
  | radix, t => radixReach t
  | float, t => floatReach t
  | octal, t => octalReach t
  | decimal, t => decimalReach t
  | operator, t => operatorReach t
  | identifier, t => identifierReach k t
  | space, t => run k.space t
  | other, _ => 0

def named : List Group := [radix, float, octal, decimal, operator, identifier, space]

def farthest (k : CharClasses) (t : List Char) : Group × Nat :=
  named.foldl (fun best g => if best.2 < g.reach k t then (g, g.reach k t) else best) (other, 0)

end Group

structure Lexeme where
  group : Group
  text : List Char
  deriving DecidableEq, Repr

namespace Lexeme

def first (k : CharClasses) (c : Char) (t : List Char) : Lexeme × List Char :=
  let (g, n) := Group.farthest k (c :: t)
  (⟨g, c :: t.take (n - 1)⟩, t.drop (n - 1))

theorem first_append (k : CharClasses) (c : Char) (t : List Char) :
    (first k c t).1.text ++ (first k c t).2 = c :: t := by
  simp [first]

theorem length_first_le (k : CharClasses) (c : Char) (t : List Char) :
    (first k c t).2.length ≤ t.length := by
  simp [first]

end Lexeme

def lexemes (k : CharClasses) : List Char → List Lexeme
  | [] => []
  | c :: t => (Lexeme.first k c t).1 :: lexemes k (Lexeme.first k c t).2
termination_by t => t.length
decreasing_by exact Nat.lt_succ_of_le (Lexeme.length_first_le k c t)

@[simp] theorem lexemes_nil (k : CharClasses) : lexemes k [] = [] := by rw [lexemes]

theorem lexemes_cons (k : CharClasses) (c : Char) (t : List Char) :
    lexemes k (c :: t) = (Lexeme.first k c t).1 :: lexemes k (Lexeme.first k c t).2 := by
  rw [lexemes]

end UnitCalculator
