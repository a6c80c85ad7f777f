import UnitCalculator.Arithmetic.Whole
import UnitCalculator.Decimal.Reading
import UnitCalculator.Lexeme

/-!
The tokens of a line. Lexemes of numbers are validated after they have been cut: a literal with
a wrong digit is one error, not two tokens. White space and characters that start nothing leave
no token.
-/

set_option autoImplicit false

namespace UnitCalculator

inductive LiteralFault where
  | invalidDigit (radix : Nat)
  | tooLarge
  | missingExponent
  | malformed
  deriving DecidableEq, Repr

structure LexError where
  fault : LiteralFault
  literal : List Char
  deriving DecidableEq, Repr

def LexError.message (e : LexError) : String :=
  let literal := String.ofList e.literal
  match e.fault with
  | .invalidDigit radix =>
    "Integer format: invalid digit for radix " ++ toString radix ++ ": " ++ literal
  | .tooLarge => "Integer format: number too large to fit in 128 bits: " ++ literal
  | .missingExponent => "Float format: missing exponent digits: " ++ literal
  | .malformed => "Float format: " ++ literal

namespace Literal

def digitValue (c : Char) : Nat :=
  if '0' ≤ c && c ≤ '9' then c.toNat - '0'.toNat
  else if 'a' ≤ c && c ≤ 'f' then c.toNat - 'a'.toNat + 10
  else if 'A' ≤ c && c ≤ 'F' then c.toNat - 'A'.toNat + 10
  else 16

/-- Positional value, the first digit highest. -/
def value (radix : Nat) (ds : List Char) : Nat :=
  ds.foldl (fun v c => v * radix + digitValue c) 0

/-- The most decimal digits that the host converts, either way. -/
def decimalDigitLimit : Nat := 4300

/-- A binary body may name its radix once more. -/
def dropMark (radix : Nat) : List Char → List Char
  | '0' :: c :: ds => if radix = 2 && (c = 'b' || c = 'B') then ds else '0' :: c :: ds
  | ds => ds

def digits? (radix : Nat) (body : List Char) : Option (List Char) :=
  let ds := dropMark radix (body.filter (· ≠ '_'))
  if ds.isEmpty || !ds.all (fun c => digitValue c < radix) then none
  else if radix = 10 && decimalDigitLimit < ds.length then none
  else some ds

def integer (radix : Nat) (body literal : List Char) : Except LexError Token :=
  match digits? radix body with
  | none => .error ⟨.invalidDigit radix, literal⟩
  | some ds =>
    let n : Int := value radix ds
    if n ≤ Whole.greatest then .ok (.int n) else .error ⟨.tooLarge, literal⟩

def exponentPart (ds : List Char) : Option (List Char) :=
  match ds.dropWhile (fun c => !isExponentMark c) with
  | [] => none
  | _ :: e => some e

def float (literal : List Char) : Except LexError Token :=
  let ds := literal.filter (· ≠ '_')
  if (exponentPart ds).any (fun e => (e.dropWhile isSign).isEmpty) then
    .error ⟨.missingExponent, literal⟩
  else
    match Decimal.read? ds with
    | some d => .ok (.float d.toFloat)
    | none => .error ⟨.malformed, literal⟩

def radixOf (text : List Char) : Nat :=
  match text with
  | _ :: m :: _ => if m = 'x' || m = 'X' then 16 else 2
  | _ => 2

end Literal

def Lexeme.token? (x : Lexeme) : Except LexError (Option Token) :=
  match x.group with
  | .radix => some <$> Literal.integer (Literal.radixOf x.text) (x.text.drop 2) x.text
  | .float => some <$> Literal.float x.text
  | .octal => some <$> Literal.integer 8 (x.text.drop 1) x.text
  | .decimal => some <$> Literal.integer 10 x.text x.text
  | .operator => .ok (some (.op (Operator.ofText (String.ofList x.text))))
  | .identifier => .ok (some (.ident (String.ofList x.text)))
  | .space | .other => .ok none

def tokensOf : List Lexeme → Except LexError (List Token)
  | [] => .ok []
  | x :: xs =>
    match x.token? with
    | .error e => .error e
    | .ok none => tokensOf xs
    | .ok (some t) => (t :: ·) <$> tokensOf xs

def tokenize (k : Text.CharClasses) (text : List Char) : Except LexError (List Token) :=
  tokensOf (lexemes k text)

def tokenTrace : List Lexeme → List String
  | [] => []
  | x :: xs =>
    match x.token? with
    | .error _ => []
    | .ok none => tokenTrace xs
    | .ok (some t) =>
      ("lex " ++ Text.quoted (String.ofList x.text) ++ " -> " ++ t.spelled) :: tokenTrace xs

end UnitCalculator
