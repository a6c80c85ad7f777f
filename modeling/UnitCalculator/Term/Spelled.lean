import UnitCalculator.Term

/-!
Terms written out in full, each with the name of its kind and of its parts, as messages show them.
-/

set_option autoImplicit false

namespace UnitCalculator

def tupleText : List String → String
  | [] => "()"
  | [x] => "(" ++ x ++ ",)"
  | xs => "(" ++ String.intercalate ", " xs ++ ")"

def pairsText (ps : List (String × Int)) : String :=
  tupleText (ps.map fun p => "(" ++ Text.quoted p.1 ++ ", " ++ toString p.2 ++ ")")

def Fraction.spelled (f : Fraction) : String :=
  "UnitFraction(numerator=" ++ pairsText f.numerator ++ ", denominator=" ++
    pairsText f.denominator ++ ")"

def Term.spelled : Term → String
  | .absent => "None"
  | .empty => "Empty()"
  | .number a u => a.kind ++ "(value=" ++ a.text ++ ", unit=" ++ u.spelled ++ ")"
  | .signed o t => "Unary(op=" ++ Text.quoted o.text ++ ", operand=" ++ t.spelled ++ ")"
  | .binary o l r =>
    "BinOp(op=" ++ Text.quoted o.text ++ ", lhs=" ++ l.spelled ++ ", rhs=" ++ r.spelled ++ ")"
  | .name s => "Var(name=" ++ Text.quoted s ++ ")"
  | .call s ts => "Func(name=" ++ Text.quoted s ++ ", args=" ++ tupleText (spelledList ts) ++ ")"
  | .command s ts =>
    "Command(name=" ++ Text.quoted s ++ ", args=" ++ tupleText (ts.map Token.spelled) ++ ")"
  | .bracketed t => "Unit(inner=" ++ t.spelled ++ ")"
  | .fraction f => f.spelled
where
  spelledList : List Term → List String
  | [] => []
  | t :: ts => t.spelled :: spelledList ts

end UnitCalculator
