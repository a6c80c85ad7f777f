import UnitCalculator.Proofs.Arithmetic.Range
import UnitCalculator.Proofs.Units.Combination

/-!
Canonical quantities. The units of results have atomic symbols only; so combining them never scales
a number, and no scale factor can vanish on the way.
-/

set_option autoImplicit false

namespace UnitCalculator

/-- Both sides in strict order with exponents above zero, no symbol on both, at least one of them not
empty; no compound symbol and not the number one. -/
structure Fraction.Canonical (f : Fraction) : Prop where
  nonempty : f.numerator ≠ [] ∨ f.denominator ≠ []
  sorted_numerator : f.numerator.Pairwise fun p q => p.1 < q.1
  sorted_denominator : f.denominator.Pairwise fun p q => p.1 < q.1
  positive : ∀ p ∈ f.numerator ++ f.denominator, 0 < p.2
  apart : ∀ p ∈ f.numerator, ∀ q ∈ f.denominator, p.1 ≠ q.1
  atomic : ∀ p ∈ f.numerator ++ f.denominator, p.1 ≠ dimensionless ∧ Units.compound? p.1 = none

/-- A number in range with no unit or a canonical one. -/
structure Quantity.Canonical (q : Quantity) : Prop where
  inRange : ∀ n, q.value = .int n → Whole.InRange n
  unit : ∀ f, q.unit = some f → f.Canonical

namespace Units

def Supported (P : String → Prop) (d : Dimension) : Prop := ∀ s, d s ≠ 0 → P s

namespace Supported

variable {P : String → Prop} {d e : Dimension}

theorem zero : Supported P fun _ => 0 := fun _ h => absurd rfl h

theorem single {s : String} (h : P s) : Supported P (single s) := by
  intro t ht
  by_cases hs : t = s
  · rwa [hs]
  · exact absurd (if_neg hs) ht

theorem add (hd : Supported P d) (he : Supported P e) : Supported P fun s => d s + e s := by
  intro s hs
  by_cases h : d s = 0
  · exact he s fun h' => hs (by simp only [h, h', Int.add_zero])
  · exact hd s h

theorem sub (hd : Supported P d) (he : Supported P e) : Supported P fun s => d s - e s := by
  intro s hs
  by_cases h : d s = 0
  · exact he s fun h' => hs (by simp only [h, h', Int.sub_zero])
  · exact hd s h

theorem mul (n : Int) (hd : Supported P d) : Supported P fun s => n * d s := by
  intro s hs
  exact hd s fun h => hs (by simp only [h, Int.mul_zero])

end Supported

def Atomic (d : Dimension) : Prop := ∀ s, d s ≠ 0 → compound? s = none

theorem compound?_repeat_base_add (n : Nat) (s : String) :
    compound? (Nat.repeat base (longestChain + n) s) = none := by
  induction n with
  | zero => exact compound?_repeat_base s
  | succ n ih =>
    rw [← Nat.add_assoc, Nat.repeat, base_of_atomic ih]
    exact ih

theorem compound?_atom (s : String) : compound? (atom s) = none := compound?_repeat_base_add 5 s

namespace Atomic

variable {d e : Dimension}

theorem zero : Atomic fun _ => 0 := Supported.zero

theorem single (s : String) : Atomic (single (atom s)) := Supported.single (compound?_atom s)

theorem add (hd : Atomic d) (he : Atomic e) : Atomic fun s => d s + e s := Supported.add hd he

theorem sub (hd : Atomic d) (he : Atomic e) : Atomic fun s => d s - e s := Supported.sub hd he

theorem mul (n : Int) (hd : Atomic d) : Atomic fun s => n * d s := Supported.mul n hd

end Atomic

theorem Written.atomic {u : Term} (h : Written u) : Atomic (dimension u) := by
  induction h with
  | @symbol s _ => exact .single s
  | one => exact .zero
  | times _ _ hu hv => exact hu.add hv
  | slash _ _ hu hv => exact hu.sub hv
  | @power u n _ _ hu => exact hu.mul n

/-- The one unit of a dimension of atomic symbols. -/
structure IsNormal (p : Option Fraction) : Prop where
  canonical : IsCanonical p
  atomic : Atomic (dimensionOf p)

theorem isNormal_none : IsNormal none := ⟨isCanonical_none, .zero⟩

theorem Written.isNormal {u : Term} (hu : Written u) {a : Number} {q : Quantity}
    (hq : canonicalize a (.bracketed u) = .ok q) : IsNormal q.unit := by
  obtain ⟨hc, hd⟩ := hu.isCanonical hq
  exact ⟨hc, hd ▸ hu.atomic⟩

theorem Carries.isNormal {u : Term} {d : Dimension} (hu : Carries u d) (hd : Atomic d)
    {a : Number} {q : Quantity} (hq : canonicalize a u = .ok q) : IsNormal q.unit := by
  obtain ⟨hc, he⟩ := hu.isCanonical hq
  exact ⟨hc, he ▸ hd⟩

theorem IsCanonical.entry {f : Fraction} (h : IsCanonical (some f)) {p : String × Int}
    (hp : p ∈ f.numerator ++ f.denominator) : 0 < p.2 ∧ dimensionOf (some f) p.1 ≠ 0 := by
  obtain ⟨-, hn, hd⟩ := h.denotes
  obtain hp | hp := List.mem_append.1 hp
  · obtain ⟨hpos, he⟩ := (hn.mem_iff p.1 p.2).1 hp
    exact ⟨hpos, by omega⟩
  · obtain ⟨hpos, he⟩ := (hd.mem_iff p.1 p.2).1 hp
    exact ⟨hpos, by omega⟩

theorem IsNormal.fraction {f : Fraction} (h : IsNormal (some f)) : f.Canonical := by
  obtain ⟨⟨⟨s, hs⟩, hn, hd⟩, h₁⟩ := h.canonical
  have hentry (p : String × Int) (hp : p ∈ f.numerator ++ f.denominator) :=
    h.canonical.entry hp
  refine ⟨?_, hn.sorted, hd.sorted, fun p hp => (hentry p hp).1, ?_, fun p hp => ⟨?_, ?_⟩⟩
  · by_cases hpos : 0 < dimensionOf (some f) s
    · exact .inl (List.ne_nil_of_mem ((hn.mem_iff s _).2 ⟨hpos, rfl⟩))
    · exact .inr (List.ne_nil_of_mem ((hd.mem_iff s _).2 ⟨by omega, rfl⟩))
  · intro p hp q hq he
    obtain ⟨hp₀, hp⟩ := (hn.mem_iff p.1 p.2).1 hp
    obtain ⟨hq₀, hq⟩ := (hd.mem_iff q.1 q.2).1 hq
    rw [he] at hp
    omega
  · intro he
    exact (hentry p hp).2 (he ▸ h₁)
  · exact h.atomic p.1 (hentry p hp).2

end Units

structure Quantity.Normal (q : Quantity) : Prop where
  bounded : q.value.Bounded
  unit : Units.IsNormal q.unit

theorem Quantity.Normal.canonical {q : Quantity} (h : q.Normal) : q.Canonical where
  inRange := h.bounded
  unit f hf := by
    have hu := h.unit
    rw [hf] at hu
    exact hu.fraction

namespace Units

/-! Units that do not scale -/

/-- The unit is canonical with whatever number it stands behind, and leaves the number alone. -/
def KeepsNumber (u : Term) : Prop := ∀ a, ∃ p, canonicalize a u = .ok ⟨a, p⟩

def Unscaled (u : Term) : Prop := ∃ c, collect u = .ok c ∧ c.factor = none

theorem keepsNumber_absent : KeepsNumber .absent := fun _ => ⟨none, rfl⟩

theorem Unscaled.keepsNumber {u : Term} (h : Unscaled u) : KeepsNumber u := by
  intro a
  obtain ⟨c, hc, hf⟩ := h
  by_cases hu : u = .absent
  · exact hu ▸ keepsNumber_absent a
  · refine ⟨cancelled c.numerator c.denominator, ?_⟩
    rw [canonicalize, hc]
    · simp [bind, Except.bind, hf]
    · exact hu

theorem unscaled_fraction (f : Fraction) : Unscaled (.fraction f) := ⟨_, rfl, rfl⟩

theorem unscaled_one : Unscaled (.int 1) := by
  have hu : Written (.int 1) := .one
  have hl : ¬TooLarge (.int 1) := by
    rintro ⟨k, v, n, h, -⟩
    cases h
  obtain ⟨c, hc, hf⟩ := ofWritten_plain hu hl fun k s h => nomatch h
  exact ⟨c, hu.collect_eq.trans hc, hf⟩

section

variable {u v : Term} (h : (containsFraction u || containsFraction v) = true)

include h

theorem Unscaled.times (hu : Unscaled u) (hv : Unscaled v) : Unscaled (.binary .times u v) := by
  obtain ⟨c, hc, hfc⟩ := hu
  obtain ⟨d, hd, hfd⟩ := hv
  refine ⟨_, by rw [collect, h, Bool.not_true, if_neg Bool.false_ne_true, hc, hd]; rfl, ?_⟩
  rw [hfc, hfd]
  rfl

/-- One divides by one where neither side has a factor. -/
theorem Unscaled.slash (hu : Unscaled u) (hv : Unscaled v) : Unscaled (.binary .slash u v) := by
  obtain ⟨c, hc, hfc⟩ := hu
  obtain ⟨d, hd, hfd⟩ := hv
  have hq : joinQuotient c.factor d.factor = .ok none := by
    rw [hfc, hfd]
    rfl
  refine ⟨⟨none, c.numerator.sum d.denominator, c.denominator.sum d.numerator⟩, ?_, rfl⟩
  rw [collect, h, Bool.not_true, if_neg Bool.false_ne_true, hc, hd]
  simp [bind, Except.bind, hq]

end

theorem Unscaled.power {u : Term} (hu : Unscaled u) (h : containsFraction u = true) (n : Int) :
    Unscaled (.binary .caret u (.int n)) := by
  obtain ⟨c, hc, hf⟩ := hu
  have hp : powFactor c.factor n = .ok none := by
    rw [hf]
    rfl
  unfold Unscaled
  rw [Term.int, collect, h, Bool.true_or, Bool.not_true, if_neg Bool.false_ne_true, hc]
  simp [bind, Except.bind, hp]

end Units
end UnitCalculator
