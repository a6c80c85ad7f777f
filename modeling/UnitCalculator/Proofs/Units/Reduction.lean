import UnitCalculator.Proofs.Units.Expansion

/-!
Reducing a unit to one quotient of two products keeps what every symbol counts in it: above the
bar less below it. The counts of the reduced unit are exponents.
-/

set_option autoImplicit false

namespace UnitCalculator.Units

inductive Product : Term → Prop where
  | symbol (s : String) : Product (.name s)
  | int (n : Int) (u : Term) : Product (.number (.int n) u)
  | times {u v : Term} : Product u → Product v → Product (.binary .times u v)

/-- A product, or one quotient of two products. -/
inductive Reduced : Term → Prop where
  | product {u : Term} : Product u → Reduced u
  | quotient {u v : Term} : Product u → Product v → Reduced (.binary .slash u v)

/-- What a symbol counts in a unit without powers; integers count as the number one. -/
def tally : Term → Dimension
  | .name s => single s
  | .number _ _ => single dimensionless
  | .binary .times u v => fun s => tally u s + tally v s
  | .binary .slash u v => fun s => tally u s - tally v s
  | _ => fun _ => 0

theorem Flat.rewriteProduct {u v : Term} (hu : Flat u) (hv : Flat v) :
    Flat (rewriteProduct u v) := by
  unfold Units.rewriteProduct
  split
  · cases hu with
    | slash ha hb => exact (ha.times hv).slash hb
  · cases hv with
    | slash ha hb => exact (hu.times ha).slash hb
  · exact hu.times hv

theorem Flat.rewriteQuotient {u v : Term} (hu : Flat u) (hv : Flat v) :
    Flat (rewriteQuotient u v) := by
  unfold Units.rewriteQuotient
  split
  · cases hv with
    | slash ha hb => exact (hu.times hb).slash ha
  · cases hu with
    | slash ha hb => exact ha.slash (hb.times hv)
  · exact hu.slash hv

theorem Flat.rewriteStep {u : Term} (h : Flat u) : Flat (rewriteStep u) := by
  induction h with
  | symbol s => exact .symbol s
  | int n u => exact .int n u
  | times _ _ hu hv => exact hu.rewriteProduct hv
  | slash _ _ hu hv => exact hu.rewriteQuotient hv

theorem tally_rewriteProduct (u v : Term) (s : String) :
    tally (rewriteProduct u v) s = tally u s + tally v s := by
  unfold rewriteProduct
  split
  · simp only [tally]
    omega
  · simp only [tally]
    omega
  · rfl

theorem tally_rewriteQuotient (u v : Term) (s : String) :
    tally (rewriteQuotient u v) s = tally u s - tally v s := by
  unfold rewriteQuotient
  split
  · simp only [tally]
    omega
  · simp only [tally]
    omega
  · rfl

theorem tally_rewriteStep {u : Term} (h : Flat u) (s : String) :
    tally (rewriteStep u) s = tally u s := by
  induction h with
  | symbol t => rfl
  | int n u => rfl
  | times _ _ hu hv => rw [rewriteStep, tally_rewriteProduct, hu, hv, tally]
  | slash _ _ hu hv => rw [rewriteStep, tally_rewriteQuotient, hu, hv, tally]

theorem Flat.reduce {u : Term} (h : Flat u) : Flat (reduce u) := by
  induction u using reduce.induct with
  | case1 u hr ih =>
    rw [Units.reduce, if_pos hr]
    exact ih h.rewriteStep
  | case2 u hr => rwa [Units.reduce, if_neg hr]

theorem tally_reduce {u : Term} (h : Flat u) (s : String) : tally (reduce u) s = tally u s := by
  induction u using reduce.induct with
  | case1 u hr ih =>
    rw [reduce, if_pos hr, ih h.rewriteStep, tally_rewriteStep h]
  | case2 u hr => rw [reduce, if_neg hr]

theorem isReducible_reduce (u : Term) : isReducible (reduce u) = false := by
  induction u using reduce.induct with
  | case1 u hr ih => rwa [reduce, if_pos hr]
  | case2 u hr => rwa [reduce, if_neg hr, ← Bool.not_eq_true]

/-- Where no rule applies, nothing but a quotient of products is left. -/
theorem Flat.reduced {u : Term} (h : Flat u) (hr : isReducible u = false) : Reduced u := by
  induction h with
  | symbol s => exact .product (.symbol s)
  | int n u => exact .product (.int n u)
  | times _ _ hu hv =>
    simp only [isReducible, Bool.or_eq_false_iff, Bool.and_eq_false_iff, beq_self_eq_true,
      Bool.true_or, Bool.true_eq_false, false_or] at hr
    obtain ⟨⟨⟨qu, qv⟩, ru⟩, rv⟩ := hr
    cases hu ru with
    | quotient _ _ => simp [isQuotient] at qu
    | product pu =>
      cases hv rv with
      | quotient _ _ => simp [isQuotient] at qv
      | product pv => exact .product (pu.times pv)
  | slash _ _ hu hv =>
    simp only [isReducible, Bool.or_eq_false_iff, Bool.and_eq_false_iff, beq_self_eq_true,
      Bool.or_true, Bool.true_eq_false, false_or] at hr
    obtain ⟨⟨⟨qu, qv⟩, ru⟩, rv⟩ := hr
    cases hu ru with
    | quotient _ _ => simp [isQuotient] at qu
    | product pu =>
      cases hv rv with
      | quotient _ _ => simp [isQuotient] at qv
      | product pv => exact .quotient pu pv

theorem Flat.reduced_reduce {u : Term} (h : Flat u) : Reduced (Units.reduce u) :=
  h.reduce.reduced (isReducible_reduce u)

/-! Counting -/

structure Counted (x : Exponents) : Prop where
  sorted : x.Sorted
  positive : x.Positive

theorem counted_nil : Counted [] := ⟨Exponents.sorted_nil, Exponents.positive_nil⟩

theorem Counted.add {x : Exponents} (h : Counted x) (s : String) : Counted (x.add s 1) :=
  ⟨h.sorted.add s 1, h.positive.add (by decide)⟩

theorem Counted.count_add {x : Exponents} (h : Counted x) (s t : String) :
    (x.add s 1).count t = x.count t + single s t := h.sorted.count_add s t 1

theorem countInto_product {u : Term} (h : Product u) {x : Exponents} (hx : Counted x) :
    ∃ y, countInto x u = .ok y ∧ Counted y ∧ ∀ s, y.count s = x.count s + tally u s := by
  induction h generalizing x with
  | symbol s => exact ⟨_, rfl, hx.add s, hx.count_add s⟩
  | int n u => exact ⟨_, rfl, hx.add _, hx.count_add _⟩
  | times _ _ hu hv =>
    obtain ⟨y, he, hy, hyc⟩ := hu hx
    obtain ⟨z, he', hz, hzc⟩ := hv hy
    refine ⟨z, by simp [countInto, he, he', bind, Except.bind], hz, fun s => ?_⟩
    rw [hzc, hyc, tally, Int.add_assoc]

theorem counts_reduced {u : Term} (h : Reduced u) :
    ∃ x y, counts u = .ok (x, y) ∧ Counted x ∧ Counted y ∧
      ∀ s, x.count s - y.count s = tally u s := by
  cases h with
  | product h =>
    obtain ⟨x, he, hx, hc⟩ := countInto_product h counted_nil
    refine ⟨x, [], ?_, hx, counted_nil, fun s => ?_⟩
    · cases h <;> simp only [counts, he, bind, Except.bind]
    · rw [hc]
      simp
  | quotient hu hv =>
    obtain ⟨x, he, hx, hxc⟩ := countInto_product hu counted_nil
    obtain ⟨y, he', hy, hyc⟩ := countInto_product hv counted_nil
    refine ⟨x, y, by simp only [counts, he, he', bind, Except.bind], hx, hy, fun s => ?_⟩
    rw [hxc, hyc, tally]
    simp

/-- Once all symbols are atomic, what they count is the dimension, the number one apart. -/
theorem dimension_eq_tally {u : Term} (h : Flat u) (ha : ∀ s ∈ symbols u, compound? s = none)
    {s : String} (hs : s ≠ dimensionless) : dimension u s = tally u s := by
  induction h with
  | symbol t => rw [dimension, tally, atom_of_atomic (ha t (by simp [symbols]))]
  | int n u => simp [dimension, tally, single, hs]
  | times _ _ hu hv =>
    simp only [symbols, List.mem_append] at ha
    simp only [dimension, tally]
    rw [hu fun s hs => ha s (.inl hs), hv fun s hs => ha s (.inr hs)]
  | slash _ _ hu hv =>
    simp only [symbols, List.mem_append] at ha
    simp only [dimension, tally]
    rw [hu fun s hs => ha s (.inl hs), hv fun s hs => ha s (.inr hs)]

end UnitCalculator.Units
