/-!
Metric prefixes that may follow a literal.
-/

set_option autoImplicit false

namespace UnitCalculator

structure MetricPrefix where
  letter : Char
  factor : Float

def metricPrefixes : List MetricPrefix :=
  [⟨'k', 1e3⟩, ⟨'M', 1e6⟩, ⟨'G', 1e9⟩, ⟨'T', 1e12⟩, ⟨'m', 1e-3⟩, ⟨'u', 1e-6⟩, ⟨'n', 1e-9⟩,
   ⟨'p', 1e-12⟩]

def prefixFactor? (c : Char) : Option Float :=
  (metricPrefixes.find? fun p => p.letter = c).map (·.factor)

def prefixName? (s : String) : Option Float :=
  match s.toList with
  | [c] => prefixFactor? c
  | _ => none

def isImaginaryName (s : String) : Bool := s = "i" || s = "j"

/-- A prefix and the imaginary unit in one name: `2 ki`. -/
def prefixedImaginary? (s : String) : Option Float :=
  match s.toList with
  | [c, d] => if d = 'i' || d = 'j' then prefixFactor? c else none
  | _ => none

end UnitCalculator
