import UnitCalculator.Proofs.Display.Real
import UnitCalculator.Proofs.Session.Integers

/-!
Numbers without imaginary parts as they are shown: a literal, or one behind a minus. What it stands
for is the number itself, or the integer that a whole float is shown as.
-/

set_option autoImplicit false

namespace UnitCalculator

open Text

variable {k : CharClasses} {x : Float}

/-- The text is a literal, and `a` is what stands in front of it, minus or nothing, makes of it. -/
def IsNumeral (k : CharClasses) (negative : Bool) (text : List Char) (a : Number) : Prop :=
  ∃ t b, IsLiteral k text (.ok t) ∧ Grammar.literal? t = some b ∧
    (if negative then b.neg else .ok b) = .ok a

namespace Display

def minus (negative : Bool) : List Char := if negative then ['-'] else []

/-! Integers -/

theorem minus_int (radix : Radix) (size : Nat) (n : Int) :
    int radix size n = minus (n < 0) ++ natural radix size n.natAbs := by
  rw [int_eq, minus]
  simp only [decide_eq_true_eq]

/-- The magnitude of an integer in range is in range, but for the least one. -/
theorem isNumeral_int (radix : Radix) (size : Nat) {n : Int} (hn : Whole.InRange n)
    (hl : n ≠ Whole.least) : IsNumeral k (n < 0) (natural radix size n.natAbs) (.int n) := by
  obtain ⟨hle, hge⟩ := hn
  have hleast : Whole.least = -(Whole.greatest + 1) := by decide
  refine ⟨_, _, isLiteral_int radix size (n := n.natAbs) (by omega), rfl, ?_⟩
  split
  · next h =>
    have hneg : n < 0 := by simpa using h
    have hn : -(n.natAbs : Int) = n := by omega
    show Number.checkedInt _ = _
    rw [hn]
    exact Number.checkedInt_of_inRange ⟨hle, hge⟩
  · next h =>
    have hneg : ¬n < 0 := by simpa using h
    have hn : (n.natAbs : Int) = n := by omega
    rw [hn]

/-! Floats -/

/-- The float is shown as an integer. -/
def isShort (x : Float) : Bool := isWhole x && x.abs < exactLimit

def negative (x : Float) : Bool := if isShort x then truncate x < 0 else Layout.isNegative x

def unsigned (x : Float) : List Char :=
  if isShort x then natural .decimal 0 (truncate x).natAbs else Layout.standard.magnitude x

/-- What the text of a float is a literal of, its sign included. -/
def shown (x : Float) : Number := if isShort x then .int (truncate x) else .real x

theorem of_isShort (h : isShort x = true) : isWhole x = true ∧ x.abs < exactLimit := by
  simpa [isShort] using h

theorem minus_float (x : Float) : float x = minus (negative x) ++ unsigned x := by
  unfold float negative unsigned
  split
  · next h => rw [toList_toString, minus_int, isShort, if_pos h, if_pos h]
  · next h =>
    rw [isShort, if_neg h, if_neg h, Layout.float, minus]
    split <;> rfl

theorem isNegative_eq (h : x.isFinite = true) : Layout.isNegative x = signBit x := by
  rw [Layout.isNegative, (Floats.isNumber_of_isFinite h).1]
  simp

theorem isNumeral_float (h : x.isFinite = true) (hr : ReadsBack x) :
    IsNumeral k (negative x) (unsigned x) (shown x) := by
  unfold negative unsigned shown
  split
  · next hs =>
    obtain ⟨hw, hlt⟩ := of_isShort hs
    have hb := (Floats.ofInt_truncate hw hlt).1
    have hgreatest : Whole.greatest = 2 ^ 127 - 1 := rfl
    have hleast : Whole.least = -2 ^ 127 := rfl
    exact isNumeral_int .decimal 0 ⟨by omega, by omega⟩ (by omega)
  · refine ⟨_, _, isLiteral_magnitude h hr, rfl, ?_⟩
    rw [isNegative_eq h]
    split
    · next hs =>
      show Except.ok (Number.real (-x.abs)) = _
      rw [Floats.neg_abs_of_negative h hs]
    · next hs => rw [Floats.abs_of_positive h (by simpa using hs)]

theorem not_exponentMark_unsigned (h : x.isFinite = true) {w : List Char} {m : Char}
    (he : unsigned x = w ++ [m]) : isExponentMark m = false := by
  unfold unsigned at he
  split at he
  · exact not_exponentMark_natural he
  · exact (Layout.isFloatText_magnitude h).not_exponentMark he

theorem equals_shown (h : x.isFinite = true) : (Number.real x).equals (shown x) = true := by
  unfold shown
  split
  · next hs =>
    show (isWhole x && decide (truncate x = truncate x)) = true
    simp [(of_isShort hs).1]
  · exact Floats.beq_self h

theorem re_shown (h : x.isFinite = true) : ((shown x).toComplex.re == x) = true := by
  unfold shown
  split
  · next hs =>
    obtain ⟨hw, hlt⟩ := of_isShort hs
    exact (Floats.ofInt_truncate hw hlt).2
  · exact Floats.beq_self h

/-! Magnitudes -/

theorem negative_abs (h : x.isFinite = true) : negative x.abs = false := by
  obtain ⟨-, hs⟩ := Floats.ofFloat_abs h
  unfold negative
  split
  · have hnonneg : 0 ≤ truncate x.abs := by
      unfold truncate
      simp [hs]
    simpa using hnonneg
  · rw [isNegative_eq (Floats.isFinite_abs h), hs]

theorem readsBack_abs (h : x.isFinite = true) (hr : ReadsBack x) : ReadsBack x.abs := by
  obtain ⟨d, hd, hx⟩ := hr
  obtain ⟨hb, hs⟩ := Floats.ofFloat_abs h
  have hmagnitude : Layout.standard.magnitude x.abs = Layout.standard.magnitude x := by
    unfold Layout.magnitude
    rw [hb]
    simp only [Floats.isNumber_of_isFinite h, Floats.isNumber_of_isFinite (Floats.isFinite_abs h)]
  exact ⟨d, hmagnitude ▸ hd, hx.trans (Floats.abs_of_positive (Floats.isFinite_abs h) hs).symm⟩

end Display

end UnitCalculator
