/-!
Sets of characters given as tables of code point ranges.
-/

set_option autoImplicit false

namespace UnitCalculator.Text

abbrev CharTable := List (Nat × Nat)

def CharTable.has (t : CharTable) (c : Char) : Bool :=
  t.any fun r => r.1 ≤ c.toNat && c.toNat ≤ r.2

theorem CharTable.has_iff {t : CharTable} {c : Char} :
    t.has c = true ↔ ∃ r ∈ t, r.1 ≤ c.toNat ∧ c.toNat ≤ r.2 := by
  simp [CharTable.has]

end UnitCalculator.Text
