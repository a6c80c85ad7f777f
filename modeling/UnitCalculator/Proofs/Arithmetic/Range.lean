import UnitCalculator.Session.Function
import Mathlib.Algebra.Order.Ring.Int
import Mathlib.Algebra.Ring.Parity

/-!
Integers stay in the range of 128 bits. An operation on integers checks its result, or cannot leave
the range; floats and complex numbers become no integers again.
-/

set_option autoImplicit false

namespace UnitCalculator

namespace Whole

theorem least_eq : least = -170141183460469231731687303715884105728 := by decide

theorem greatest_eq : greatest = 170141183460469231731687303715884105727 := by decide

theorem inRange_iff {n : Int} : InRange n ↔ -170141183460469231731687303715884105728 ≤ n ∧
    n ≤ 170141183460469231731687303715884105727 := by
  rw [InRange, least_eq, greatest_eq]

/-- The remainder is never above the dividend in magnitude, so it needs no check. -/
theorem inRange_tmod {m : Int} (h : InRange m) (n : Int) : InRange (m.tmod n) := by
  rw [inRange_iff] at *
  have h₁ := Int.natAbs_tmod m n
  have h₂ := Nat.mod_le m.natAbs n.natAbs
  have h₃ : (m.tmod n).natAbs ≤ m.natAbs := by omega
  by_cases hm : 0 ≤ m
  · have := Int.tmod_nonneg n hm
    omega
  · have := Int.tmod_nonneg n (show 0 ≤ -m by omega)
    rw [Int.neg_tmod] at this
    omega

theorem inRange_of_natAbs_le_one {n : Int} (h : n.natAbs ≤ 1) : InRange n := by
  rw [inRange_iff]
  omega

theorem pow_of_natAbs_le_one {b : Int} (h : b.natAbs ≤ 1) (n : Nat) :
    b ^ n = if n = 0 then 1 else if n % 2 = 0 then b * b else b := by
  have hb : b = 0 ∨ b = 1 ∨ b = -1 := by omega
  by_cases hn : n = 0
  · simp [hn]
  rw [if_neg hn]
  rcases hb with rfl | rfl | rfl
  · simp [hn]
  · simp
  · split
    · next he => simp [Even.neg_one_pow (Nat.even_iff.2 he)]
    · next ho =>
      have ho : n % 2 = 1 := by omega
      simp [Odd.neg_one_pow (Nat.odd_iff.2 ho)]

/-- A base beyond one leaves the range from the 128th power on. -/
theorem not_inRange_pow {b : Int} (h : ¬b.natAbs ≤ 1) {n : Nat} (hn : 128 ≤ n) :
    ¬InRange (b ^ n) := by
  have h₁ : 2 ^ 128 ≤ b.natAbs ^ n :=
    (Nat.pow_le_pow_right (by decide) hn).trans (Nat.pow_le_pow_left (by omega) n)
  rw [← Int.natAbs_pow] at h₁
  rw [inRange_iff]
  omega

/-- The shortcuts for powers change nothing: a power is exact or out of range. -/
theorem pow?_eq (b : Int) (n : Nat) : pow? b n = checked (b ^ n) := by
  unfold pow?
  split
  · next h =>
    have hr : InRange (b ^ n) := by
      refine inRange_of_natAbs_le_one ?_
      rw [Int.natAbs_pow]
      simpa using Nat.pow_le_pow_left h n
    rw [checked, if_pos hr, pow_of_natAbs_le_one h]
  · next h =>
    split
    · next hn => rw [checked, if_neg (not_inRange_pow h hn)]
    · rfl

end Whole

namespace Number

def Bounded (a : Number) : Prop := ∀ n, a = int n → Whole.InRange n

theorem bounded_int {n : Int} : (int n).Bounded ↔ Whole.InRange n := by
  simp [Bounded]

theorem bounded_real (x : Float) : (real x).Bounded := nofun

theorem bounded_complex (z : ComplexFloat) : (complex z).Bounded := nofun

theorem bounded_scale (factor : Float) (a : Number) : (a.scale factor).Bounded := by
  cases a <;> nofun

theorem bounded_widened (a : Number) : a.widened.Bounded := by
  cases a <;> nofun

section

variable {a b c : Number}

theorem bounded_checkedInt {n : Int} (h : checkedInt n = .ok c) : c.Bounded := by
  unfold checkedInt at h
  split at h
  · next m hm =>
    cases h
    obtain ⟨hr, rfl⟩ := Whole.checked_eq_some_iff.1 hm
    exact bounded_int.2 hr
  · cases h

theorem bounded_divComplex {z w : ComplexFloat} (h : divComplex z w = .ok c) : c.Bounded := by
  unfold divComplex at h
  split at h
  · cases h
    exact bounded_complex _
  · cases h

theorem bounded_aligned {f : Int → Int → Int} {g : Float → Float → Float}
    {k : ComplexFloat → ComplexFloat → ComplexFloat}
    (h : (match align a b with
      | .int m n => checkedInt (f m n)
      | .real x y => .ok (real (g x y))
      | .complex z w => .ok (complex (k z w))) = .ok c) : c.Bounded := by
  split at h
  · exact bounded_checkedInt h
  · cases h
    exact bounded_real _
  · cases h
    exact bounded_complex _

theorem bounded_add (h : a.add b = .ok c) : c.Bounded := bounded_aligned h

theorem bounded_sub (h : a.sub b = .ok c) : c.Bounded := bounded_aligned h

theorem bounded_mul (h : a.mul b = .ok c) : c.Bounded := bounded_aligned h

theorem bounded_div (h : a.div b = .ok c) : c.Bounded := by
  unfold div at h
  split at h
  · cases h
  · split at h
    · exact bounded_checkedInt h
    · cases h
      exact bounded_real _
    · exact bounded_divComplex h

theorem bounded_mod (ha : a.Bounded) (h : a.mod b = .ok c) : c.Bounded := by
  unfold mod at h
  split at h
  · split at h
    · cases h
    · cases h
      exact bounded_int.2 (Whole.inRange_tmod (bounded_int.1 ha) _)
  · cases h
    exact bounded_int.2 (by decide)

theorem bounded_powReal {x y : Float} (h : powReal x y = .ok c) : c.Bounded := by
  unfold powReal at h
  split at h
  · cases h
    exact bounded_real _
  · cases h
    exact bounded_complex _
  · cases h

theorem bounded_pow (h : a.pow b = .ok c) : c.Bounded := by
  unfold pow at h
  split at h
  · split at h
    · next r hr =>
      cases h
      rw [Whole.pow?_eq] at hr
      obtain ⟨hm, rfl⟩ := Whole.checked_eq_some_iff.1 hr
      exact bounded_int.2 hm
    · cases h
  · exact bounded_powReal h
  · exact bounded_powReal h
  · split at h
    · cases h
      exact bounded_complex _
    · cases h

theorem bounded_parallelReal {x y : Float} (h : parallelReal x y = .ok c) : c.Bounded := by
  unfold parallelReal at h
  split at h
  · cases h
  · cases h
    exact bounded_real _

theorem bounded_parallel (h : a.parallel b = .ok c) : c.Bounded := by
  unfold parallel at h
  split at h
  · exact bounded_parallelReal h
  · exact bounded_parallelReal h
  · split at h
    · cases h
    · exact bounded_divComplex h

theorem bounded_neg (h : a.neg = .ok c) : c.Bounded := by
  unfold neg at h
  split at h
  · exact bounded_checkedInt h
  · cases h
    exact bounded_real _
  · cases h
    exact bounded_complex _

end

end Number

namespace Function

theorem bounded_ofReal? {f : Float → Float} {x : Float} {a : Number} (h : ofReal? f x = some a) :
    a.Bounded := by
  simp only [ofReal?] at h
  split at h
  · cases h
  · cases h
    exact Number.bounded_real _

theorem bounded_of_map {α : Type} {o : Option α} {f : α → Number} {a : Number}
    (hf : ∀ b, (f b).Bounded) (h : o.map f = some a) : a.Bounded := by
  obtain ⟨b, -, rfl⟩ := Option.map_eq_some_iff.1 h
  exact hf b

theorem bounded_apply₁ {f : Float → Float} {g : ComplexFloat → Option ComplexFloat}
    {a b : Number} (h : apply₁ f g a = some b) : b.Bounded := by
  cases a with
  | int n | real x => exact bounded_ofReal? h
  | complex z => exact bounded_of_map Number.bounded_complex h

theorem bounded_absolute {a b : Number} (h : absolute a = some b) : b.Bounded := by
  cases a with
  | int n | real x =>
    cases h
    exact Number.bounded_real _
  | complex z => exact bounded_of_map Number.bounded_real h

theorem bounded_best {better : Float → Float → Bool} {as : List Number} {a : Number}
    (has : ∀ b ∈ as, b.Bounded) (h : best better as = some a) : a.Bounded := by
  unfold best at h
  split at h
  · cases h
    exact Number.bounded_real _
  · cases h
    exact has a List.mem_cons_self
  · obtain ⟨xs, -, h⟩ := Option.bind_eq_some_iff.1 h
    split at h <;>
    · cases h
      exact Number.bounded_real _

theorem bounded_apply {f : Function} {as : List Number} {a : Number}
    (has : ∀ b ∈ as, b.Bounded) (h : f.apply as = some a) : a.Bounded := by
  unfold apply at h
  split at h
  · exact bounded_best has h
  · exact bounded_best has h
  · exact bounded_of_map Number.bounded_real h
  · exact bounded_of_map Number.bounded_real h
  · split at h
    · split at h <;> first | exact bounded_apply₁ h | exact bounded_absolute h
    · cases h

end Function
end UnitCalculator
