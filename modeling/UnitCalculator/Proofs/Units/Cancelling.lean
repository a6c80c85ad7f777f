import UnitCalculator.Proofs.Units.Normal

/-!
What cancelling leaves. A unit may be of any form, with fractions in it that list their entries in no
order, or more than once, or with exponents of zero and below. The lists that it is collected into are in
order all the same, so what cancelling leaves of them is the canonical unit of some dimension.
-/

set_option autoImplicit false

namespace UnitCalculator

theorem exists_of_bind_ok {ε α β : Type} {x : Except ε α} {f : α → Except ε β} {b : β}
    (h : (x >>= f) = .ok b) : ∃ a, x = .ok a ∧ f a = .ok b := by
  cases x with
  | error e => cases h
  | ok a => exact ⟨a, rfl, h⟩

namespace Exponents

theorem Sorted.foldl_set {x : Exponents} (h : Sorted x) (ps : List (String × Int)) :
    Sorted (ps.foldl (fun x p => x.set p.1 p.2) x) := by
  induction ps generalizing x with
  | nil => exact h
  | cons p ps ih => exact ih (h.update p.1 _)

theorem sorted_ofPairs (ps : List (String × Int)) : Sorted (ofPairs ps) := sorted_nil.foldl_set ps

/-- What is left of a symbol was counted above what the other side takes of it. -/
theorem Sorted.of_mem_less {x y : Exponents} (h : Sorted x) {p : String × Int}
    (hp : p ∈ x.less y) : ∃ n, x.count? p.1 = some n ∧ 0 < y.left p.1 n := by
  rw [less_eq] at hp
  obtain ⟨hmem, hpos⟩ := List.mem_filter.1 hp
  obtain ⟨q, hq, rfl⟩ := List.mem_map.1 hmem
  exact ⟨q.2, h.mem_iff.1 hq, by simpa using hpos⟩

theorem Sorted.less_apart {x y : Exponents} (hx : Sorted x) (hy : Sorted y) {p q : String × Int}
    (hp : p ∈ x.less y) (hq : q ∈ y.less x) : p.1 ≠ q.1 := by
  intro he
  obtain ⟨n, hn, hleft⟩ := hx.of_mem_less hp
  obtain ⟨m, hm, hright⟩ := hy.of_mem_less hq
  rw [← he] at hm hright
  simp only [left, hm] at hleft
  simp only [left, hn] at hright
  omega

end Exponents

namespace Units

theorem Counted.mem_of_count {x : Exponents} (h : Counted x) {s : String} (hs : x.count s ≠ 0) :
    (s, x.count s) ∈ x := by
  have hn := h.positive.count_nonneg s
  exact (h.sorted.mem_iff_count h.positive).2 ⟨by omega, rfl⟩

theorem Counted.count_eq_zero {x y : Exponents} (hx : Counted x) (hy : Counted y)
    (hapart : ∀ p ∈ x, ∀ q ∈ y, p.1 ≠ q.1) (s : String) : x.count s = 0 ∨ y.count s = 0 := by
  by_contra h
  obtain ⟨hs, hs'⟩ := not_or.1 h
  exact hapart _ (hx.mem_of_count hs) _ (hy.mem_of_count hs') rfl

theorem lists_of_apart {x y : Exponents} (hx : Counted x) (hy : Counted y)
    (hapart : ∀ p ∈ x, ∀ q ∈ y, p.1 ≠ q.1) : Lists x fun s => x.count s - y.count s := by
  refine lists_of_count hx.sorted hx.positive fun s => ?_
  have hs := hx.positive.count_nonneg s
  have hs' := hy.positive.count_nonneg s
  have hz := hx.count_eq_zero hy hapart s
  omega

theorem Counted.exists_count {x : Exponents} (h : Counted x) (hne : x ≠ []) :
    ∃ s, x.count s ≠ 0 := by
  by_contra hall
  exact hne ((eq_nil_iff_count h.positive).2 fun s => not_not.1 fun hs => hall ⟨s, hs⟩)

/-- Sides in order with exponents above zero, no symbol on both of them and no number one, are those of
a canonical unit. -/
theorem isCanonical_of_apart {x y : Exponents} (hx : Counted x) (hy : Counted y)
    (hne : x ≠ [] ∨ y ≠ []) (hapart : ∀ p ∈ x, ∀ q ∈ y, p.1 ≠ q.1)
    (hone : ∀ p ∈ x ++ y, p.1 ≠ dimensionless) : IsCanonical (some ⟨x, y⟩) := by
  have hdim : dimensionOf (some ⟨x, y⟩) = fun s => x.count s - y.count s := rfl
  have hneg : (fun s => -dimensionOf (some ⟨x, y⟩) s) = fun s => y.count s - x.count s := by
    funext s
    rw [hdim]
    exact Int.neg_sub _ _
  have hsome : ∃ s, x.count s ≠ 0 ∨ y.count s ≠ 0 := by
    obtain hne | hne := hne
    · exact (hx.exists_count hne).imp fun _ => .inl
    · exact (hy.exists_count hne).imp fun _ => .inr
  have hnone : x.count dimensionless = 0 ∧ y.count dimensionless = 0 := by
    constructor
    · by_contra h
      exact hone _ (List.mem_append_left _ (hx.mem_of_count h)) rfl
    · by_contra h
      exact hone _ (List.mem_append_right _ (hy.mem_of_count h)) rfl
  refine ⟨⟨?_, hdim ▸ lists_of_apart hx hy hapart, hneg ▸ lists_of_apart hy hx ?_⟩, ?_⟩
  · obtain ⟨s, hs⟩ := hsome
    have hz := hx.count_eq_zero hy hapart s
    refine ⟨s, ?_⟩
    show x.count s - y.count s ≠ 0
    omega
  · exact fun p hp q hq he => hapart q hq p hp he.symm
  · show x.count dimensionless - y.count dimensionless = 0
    omega

/-- Cancelling lists in order leaves a canonical unit, whatever the signs of their counts. -/
theorem isCanonical_cancelled {x y : Exponents} (hx : x.Sorted) (hy : y.Sorted) :
    IsCanonical (cancelled x y) := by
  have hcounted {x : Exponents} (hx : x.Sorted) (y : Exponents) :
      Counted ((x.less y).drop dimensionless) :=
    ⟨(hx.less y).drop _, (Exponents.positive_less x y).drop _⟩
  have hone {x : Exponents} {p : String × Int} (hp : p ∈ x.drop dimensionless) :
      p.1 ≠ dimensionless := by
    simpa using (List.mem_filter.1 hp).2
  simp only [cancelled, Bool.and_eq_true, List.isEmpty_iff]
  split
  · exact isCanonical_none
  · next hne =>
    refine isCanonical_of_apart (hcounted hx y) (hcounted hy x) (not_and_or.1 hne) ?_ ?_
    · intro p hp q hq
      exact hx.less_apart hy (List.mem_of_mem_filter hp) (List.mem_of_mem_filter hq)
    · intro p hp
      obtain hp | hp := List.mem_append.1 hp
      · exact hone hp
      · exact hone hp

/-! Lists that are collected -/

theorem countInto_sorted {u : Term} {x y : Exponents} (hx : x.Sorted)
    (h : countInto x u = .ok y) : y.Sorted := by
  induction u generalizing x y with
  | name s =>
    cases h
    exact hx.add s 1
  | number a u =>
    cases a with
    | int n =>
      cases h
      exact hx.add dimensionless 1
    | _ => cases h
  | binary op u v ihu ihv =>
    cases op with
    | times =>
      rw [countInto] at h
      obtain ⟨z, hz, hy⟩ := exists_of_bind_ok h
      exact ihv (ihu hx hz) hy
    | _ => cases h
  | _ => cases h

def Scaled.Sorted (c : Scaled) : Prop := c.numerator.Sorted ∧ c.denominator.Sorted

theorem counts_sorted {u : Term} {x y : Exponents} (h : counts u = .ok (x, y)) :
    x.Sorted ∧ y.Sorted := by
  unfold counts at h
  split at h
  · obtain ⟨x, hx, h⟩ := exists_of_bind_ok h
    obtain ⟨y, hy, h⟩ := exists_of_bind_ok h
    cases h
    exact ⟨countInto_sorted Exponents.sorted_nil hx, countInto_sorted Exponents.sorted_nil hy⟩
  · obtain ⟨x, hx, h⟩ := exists_of_bind_ok h
    cases h
    exact ⟨countInto_sorted Exponents.sorted_nil hx, Exponents.sorted_nil⟩

theorem ofWritten_sorted {u : Term} {c : Scaled} (h : ofWritten u = .ok c) : c.Sorted := by
  unfold ofWritten at h
  obtain ⟨v, -, h⟩ := exists_of_bind_ok h
  obtain ⟨⟨f, w⟩, -, h⟩ := exists_of_bind_ok h
  obtain ⟨⟨x, y⟩, hxy, h⟩ := exists_of_bind_ok h
  cases h
  exact counts_sorted hxy

theorem collect_sorted {u : Term} {c : Scaled} (h : collect u = .ok c) : c.Sorted := by
  induction u generalizing c with
  | bracketed u ih =>
    rw [collect] at h
    exact ih h
  | fraction f =>
    cases h
    exact ⟨Exponents.sorted_ofPairs _, Exponents.sorted_ofPairs _⟩
  | binary op u v ihu ihv =>
    unfold collect at h
    split at h
    · exact ofWritten_sorted h
    · split at h
      · obtain ⟨a, ha, h⟩ := exists_of_bind_ok h
        obtain ⟨f, -, h⟩ := exists_of_bind_ok h
        obtain ⟨hn, hd⟩ := ihu ha
        cases h
        unfold Scaled.Sorted
        split
        · exact ⟨hd.scale _, hn.scale _⟩
        · exact ⟨hn.scale _, hd.scale _⟩
      · cases h
      · obtain ⟨a, ha, h⟩ := exists_of_bind_ok h
        obtain ⟨b, -, h⟩ := exists_of_bind_ok h
        cases h
        exact ⟨(ihu ha).1.sum _, (ihu ha).2.sum _⟩
      · obtain ⟨a, ha, h⟩ := exists_of_bind_ok h
        obtain ⟨b, -, h⟩ := exists_of_bind_ok h
        obtain ⟨f, -, h⟩ := exists_of_bind_ok h
        cases h
        exact ⟨(ihu ha).1.sum _, (ihu ha).2.sum _⟩
      · cases h
  | _ => exact ofWritten_sorted h

/-- Whatever unit a number carries, what it becomes is canonical. Compound symbols that a fraction lists
stay, since they are not written ones. -/
theorem isCanonical_of_canonicalize {u : Term} {a : Number} {q : Quantity}
    (h : canonicalize a u = .ok q) : IsCanonical q.unit := by
  by_cases hu : u = .absent
  · subst hu
    cases h
    exact isCanonical_none
  · obtain ⟨c, hc, hq⟩ := canonicalize_of_collect hu h
    obtain ⟨hn, hd⟩ := collect_sorted hc
    exact hq ▸ isCanonical_cancelled hn hd

end Units

/-- A canonical fraction is the one unit of its dimension. -/
theorem Fraction.Canonical.isNormal {f : Fraction} (h : f.Canonical) : Units.IsNormal (some f) := by
  have hn : Units.Counted f.numerator :=
    ⟨h.sorted_numerator, fun p hp => h.positive p (List.mem_append_left _ hp)⟩
  have hd : Units.Counted f.denominator :=
    ⟨h.sorted_denominator, fun p hp => h.positive p (List.mem_append_right _ hp)⟩
  refine ⟨Units.isCanonical_of_apart hn hd h.nonempty h.apart fun p hp => (h.atomic p hp).1, ?_⟩
  intro s hs
  by_cases hc : Exponents.count s f.numerator = 0
  · have hc' : Exponents.count s f.denominator ≠ 0 := fun hc' =>
      hs (by simp [Units.dimensionOf, hc, hc'])
    exact (h.atomic _ (List.mem_append_right _ (hd.mem_of_count hc'))).2
  · exact (h.atomic _ (List.mem_append_left _ (hn.mem_of_count hc))).2

end UnitCalculator
