import UnitCalculator.Proofs.Units.Canonical

/-!
Products, quotients and powers of canonical units. Their counts are added and multiplied as they
are, and what is left after cancelling denotes the sum, the difference or the multiple of the
dimensions.
-/

set_option autoImplicit false

namespace UnitCalculator.Units

/-- The one unit of its dimension, without the number one. -/
structure IsCanonical (p : Option Fraction) : Prop where
  denotes : Denotes p (dimensionOf p)
  dimensionless_eq : dimensionOf p dimensionless = 0

theorem isCanonical_none : IsCanonical none := ⟨fun _ => rfl, rfl⟩

theorem Denotes.isCanonical {p : Option Fraction} {d : Dimension} (h : Denotes p d)
    (h₁ : d dimensionless = 0) : IsCanonical p := by
  obtain rfl := h.dimensionOf_eq
  exact ⟨h, h₁⟩

theorem IsCanonical.eq_none {p : Option Fraction} (hp : IsCanonical p)
    (h : dimensionOf p = fun _ => 0) : p = none :=
  (hp.denotes.eq_iff isCanonical_none.denotes).2 h

inductive Combined : Term → Dimension → Prop where
  | fraction {f : Fraction} : IsCanonical (some f) → Combined (.fraction f) (dimensionOf (some f))
  | one : Combined (.int 1) fun _ => 0
  | times {u v : Term} {d e : Dimension} :
      Combined u d → Combined v e → Combined (.binary .times u v) fun s => d s + e s
  | slash {u v : Term} {d e : Dimension} :
      Combined u d → Combined v e → Combined (.binary .slash u v) fun s => d s - e s
  | power {u : Term} {n : Int} {d : Dimension} :
      0 < n → Combined u d → Combined (.binary .caret u (.int n)) fun s => n * d s

theorem Combined.dimensionless_eq {u : Term} {d : Dimension} (h : Combined u d) :
    d dimensionless = 0 := by
  induction h with
  | fraction hf => exact hf.dimensionless_eq
  | one => rfl
  | times _ _ hu hv => simp [hu, hv]
  | slash _ _ hu hv => simp [hu, hv]
  | power _ _ hu => simp [hu]

theorem Combined.written {u : Term} {d : Dimension} (h : Combined u d)
    (hf : containsFraction u = false) : Written u ∧ dimension u = d := by
  induction h with
  | fraction _ => cases hf
  | one => exact ⟨.one, rfl⟩
  | times _ _ ihu ihv =>
    simp only [containsFraction, Bool.or_eq_false_iff] at hf
    obtain ⟨hu, rfl⟩ := ihu hf.1
    obtain ⟨hv, rfl⟩ := ihv hf.2
    exact ⟨.times hu hv, rfl⟩
  | slash _ _ ihu ihv =>
    simp only [containsFraction, Bool.or_eq_false_iff] at hf
    obtain ⟨hu, rfl⟩ := ihu hf.1
    obtain ⟨hv, rfl⟩ := ihv hf.2
    exact ⟨.slash hu hv, rfl⟩
  | power hn _ ihu =>
    simp only [containsFraction, Bool.or_eq_false_iff] at hf
    obtain ⟨hu, rfl⟩ := ihu hf.1
    exact ⟨.power (by omega) hu, rfl⟩

theorem collect_fraction {f : Fraction} (h : IsCanonical (some f)) :
    collect (.fraction f) = .ok ⟨none, f.numerator, f.denominator⟩ := by
  obtain ⟨_, hn, hd⟩ := h.denotes
  rw [collect, hn.sorted.ofPairs, hd.sorted.ofPairs]

theorem collected_fraction {f : Fraction} (h : IsCanonical (some f)) :
    Collected ⟨none, f.numerator, f.denominator⟩ (dimensionOf (some f)) := by
  obtain ⟨_, hn, hd⟩ := h.denotes
  exact ⟨⟨hn.sorted, hn.positive⟩, ⟨hd.sorted, hd.positive⟩, fun _ _ => rfl⟩

theorem Counted.sum {x : Exponents} (hx : Counted x) (y : Exponents) : Counted (x.sum y) :=
  ⟨hx.sorted.sum y, Exponents.positive_sum x y⟩

theorem Counted.count_sum {x y : Exponents} (hx : Counted x) (hy : Counted y) (s : String) :
    (x.sum y).count s = x.count s + y.count s :=
  hx.sorted.count_sum hy.sorted hx.positive hy.positive s

theorem Counted.scale {x : Exponents} (hx : Counted x) {n : Int} (hn : 0 < n) :
    Counted (x.scale n) := ⟨hx.sorted.scale n, hx.positive.scale hn⟩

theorem Collected.times {a b : Scaled} {d e : Dimension} (ha : Collected a d)
    (hb : Collected b e) (f : Option Float) :
    Collected ⟨f, a.numerator.sum b.numerator, a.denominator.sum b.denominator⟩
      fun s => d s + e s := by
  refine ⟨ha.numerator.sum _, ha.denominator.sum _, fun s hs => ?_⟩
  have h₁ := ha.dimension_eq s hs
  have h₂ := hb.dimension_eq s hs
  simp only [ha.numerator.count_sum hb.numerator, ha.denominator.count_sum hb.denominator]
  omega

theorem Collected.slash {a b : Scaled} {d e : Dimension} (ha : Collected a d)
    (hb : Collected b e) (f : Option Float) :
    Collected ⟨f, a.numerator.sum b.denominator, a.denominator.sum b.numerator⟩
      fun s => d s - e s := by
  refine ⟨ha.numerator.sum _, ha.denominator.sum _, fun s hs => ?_⟩
  have h₁ := ha.dimension_eq s hs
  have h₂ := hb.dimension_eq s hs
  simp only [ha.numerator.count_sum hb.denominator, ha.denominator.count_sum hb.numerator]
  omega

theorem Collected.power {a : Scaled} {d : Dimension} (ha : Collected a d) {n : Int} (hn : 0 < n)
    (f : Option Float) :
    Collected ⟨f, a.numerator.scale n.natAbs, a.denominator.scale n.natAbs⟩ fun s => n * d s := by
  have hn' : (n.natAbs : Int) = n := by omega
  rw [hn']
  refine ⟨ha.numerator.scale hn, ha.denominator.scale hn, fun s hs => ?_⟩
  simp only [Exponents.count_scale, ha.dimension_eq s hs]
  rw [Int.mul_sub, Int.mul_comm n, Int.mul_comm n]

theorem collect_binary {op : Operator} {u v : Term} {d : Dimension} {c : Scaled}
    (h : Combined (.binary op u v) d) (hc : collect (.binary op u v) = .ok c) :
    Collected c d ∨ (containsFraction u || containsFraction v) = true := by
  by_cases hf : (containsFraction u || containsFraction v) = true
  · exact .inr hf
  · obtain ⟨hu, rfl⟩ := h.written (by simpa [containsFraction] using hf)
    exact .inl (hu.collected hc)

/-- Both ways to collect a unit, as written and part by part, give its dimension. -/
theorem Combined.collected {u : Term} {d : Dimension} (h : Combined u d) {c : Scaled}
    (hc : collect u = .ok c) : Collected c d := by
  induction h generalizing c with
  | fraction h =>
    rw [collect_fraction h] at hc
    cases hc
    exact collected_fraction h
  | one => exact Written.one.collected hc
  | @times u v d e hu hv ihu ihv =>
    obtain h | hf := collect_binary (.times hu hv) hc
    · exact h
    rw [collect, hf, Bool.not_true, if_neg Bool.false_ne_true] at hc
    cases ha : collect u with
    | error e => simp [ha, bind, Except.bind] at hc
    | ok a =>
      cases hb : collect v with
      | error e => simp [ha, hb, bind, Except.bind] at hc
      | ok b =>
        simp only [ha, hb, bind, Except.bind, Except.ok.injEq] at hc
        subst hc
        exact (ihu ha).times (ihv hb) _
  | @slash u v d e hu hv ihu ihv =>
    obtain h | hf := collect_binary (.slash hu hv) hc
    · exact h
    rw [collect, hf, Bool.not_true, if_neg Bool.false_ne_true] at hc
    cases ha : collect u with
    | error e => simp [ha, bind, Except.bind] at hc
    | ok a =>
      cases hb : collect v with
      | error e => simp [ha, hb, bind, Except.bind] at hc
      | ok b =>
        cases hq : joinQuotient a.factor b.factor with
        | error e => simp [ha, hb, hq, bind, Except.bind] at hc
        | ok f =>
          simp only [ha, hb, hq, bind, Except.bind, Except.ok.injEq] at hc
          subst hc
          exact (ihu ha).slash (ihv hb) _
  | @power u n d hn hu ihu =>
    obtain h | hf := collect_binary (.power hn hu) hc
    · exact h
    rw [Term.int] at hf hc
    rw [collect, hf, Bool.not_true, if_neg Bool.false_ne_true] at hc
    cases ha : collect u with
    | error e => simp [ha, bind, Except.bind] at hc
    | ok a =>
      have hn' : ¬n < 0 := by omega
      cases hp : powFactor a.factor n with
      | error e => simp [ha, hp, bind, Except.bind] at hc
      | ok f =>
        simp only [ha, hp, bind, Except.bind, if_neg hn', Except.ok.injEq] at hc
        subst hc
        exact (ihu ha).power hn _

/-- The unit of an operand or of a result, with its dimension. -/
inductive Carries : Term → Dimension → Prop where
  | absent : Carries .absent fun _ => 0
  | unit {u : Term} {d : Dimension} : Combined u d → Carries u d

theorem Combined.unwrap_eq {u : Term} {d : Dimension} (h : Combined u d) : unwrap u = u := by
  cases h with
  | _ => rfl

theorem Combined.ne_absent {u : Term} {d : Dimension} (h : Combined u d) : u ≠ .absent := by
  cases h with
  | _ => exact Term.noConfusion

theorem Carries.isCanonical {u : Term} {d : Dimension} (h : Carries u d) {a : Number}
    {q : Quantity} (hq : canonicalize a u = .ok q) :
    IsCanonical q.unit ∧ dimensionOf q.unit = d := by
  cases h with
  | absent =>
    cases hq
    exact ⟨isCanonical_none, rfl⟩
  | unit hu =>
    obtain ⟨c, hc, he⟩ := canonicalize_of_collect hu.ne_absent hq
    have hd := (hu.collected hc).denotes hu.dimensionless_eq
    rw [← he] at hd
    exact ⟨hd.isCanonical hu.dimensionless_eq, hd.dimensionOf_eq⟩

theorem Written.isCanonical {u : Term} (hu : Written u) {a : Number} {q : Quantity}
    (hq : canonicalize a (.bracketed u) = .ok q) :
    IsCanonical q.unit ∧ dimensionOf q.unit = dimension u := by
  have hd := hu.denotes hq
  exact ⟨hd.isCanonical (dimension_dimensionless hu), hd.dimensionOf_eq⟩

theorem Carries.multiply {u v : Term} {d e : Dimension} (hu : Carries u d) (hv : Carries v e) :
    Carries (multiply u v) fun s => d s + e s := by
  cases hu with
  | absent =>
    cases hv with
    | absent => exact .absent
    | unit hv =>
      simp only [Int.zero_add]
      rw [Units.multiply, hv.unwrap_eq]
      exact .unit hv
  | unit hu =>
    cases hv with
    | absent =>
      simp only [Int.add_zero]
      rw [Units.multiply, hu.unwrap_eq]
      split
      · exact absurd rfl hu.ne_absent
      · exact .unit hu
      · next h => exact absurd rfl h
    | unit hv =>
      rw [Units.multiply, hu.unwrap_eq, hv.unwrap_eq]
      split
      · exact absurd rfl hu.ne_absent
      · exact absurd rfl hv.ne_absent
      · exact .unit (.times hu hv)

theorem Carries.divide {u v : Term} {d e : Dimension} (hu : Carries u d) (hv : Carries v e) :
    Carries (divide u v) fun s => d s - e s := by
  cases hv with
  | absent =>
    simp only [Int.sub_zero]
    cases hu with
    | absent => exact .absent
    | unit hu =>
      rw [Units.divide, hu.unwrap_eq]
      exact .unit hu
  | unit hv =>
    cases hu with
    | absent =>
      rw [Units.divide, hv.unwrap_eq]
      split
      · exact absurd rfl hv.ne_absent
      · exact .unit (.slash .one hv)
      · next h => exact absurd rfl h
    | unit hu =>
      rw [Units.divide, hu.unwrap_eq, hv.unwrap_eq]
      split
      · exact absurd rfl hv.ne_absent
      · exact absurd rfl hu.ne_absent
      · exact .unit (.slash hu hv)

/-- A negative power is one over the positive one, and the zeroth is no unit. -/
theorem Carries.power {u : Term} {d : Dimension} (hu : Carries u d) (n : Int) :
    Carries (power u n) fun s => n * d s := by
  cases hu with
  | absent =>
    simp only [Int.mul_zero]
    exact .absent
  | unit hu =>
    rw [Units.power, hu.unwrap_eq]
    split
    · exact absurd rfl hu.ne_absent
    · split
      · next h =>
        simp only [h, Int.zero_mul]
        exact .absent
      · split
        · next h =>
          have hp : Carries (.binary .caret u (.int (-n))) fun s => -n * d s :=
            .unit (.power (by omega) hu)
          have hd := Carries.absent.divide hp
          simpa [Int.neg_mul] using hd
        · exact .unit (.power (by omega) hu)

end UnitCalculator.Units
