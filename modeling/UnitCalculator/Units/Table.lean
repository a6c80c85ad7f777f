/-!
Compound symbols of units, each with a factor and the symbol that it is a multiple of.
-/

set_option autoImplicit false

namespace UnitCalculator.Units

structure Compound where
  symbol : String
  factor : Float
  base : String

/-- A base may be compound itself. -/
def table : List Compound :=
  [⟨"km", 1000, "m"⟩, ⟨"cm", 0.01, "m"⟩, ⟨"mm", 0.001, "m"⟩, ⟨"mi", 1600, "m"⟩,
   ⟨"in", 0.0254, "m"⟩, ⟨"feet", 12, "in"⟩, ⟨"ft", 12, "in"⟩, ⟨"yd", 3, "feet"⟩]

def compound? (s : String) : Option Compound := table.find? fun c => c.symbol = s

end UnitCalculator.Units
