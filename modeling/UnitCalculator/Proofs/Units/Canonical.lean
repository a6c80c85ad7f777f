import UnitCalculator.Proofs.Units.Reduction

/-!
Canonical units are the normal form of written ones. A written unit is refused for its exponents
exactly where a power is above the limit; otherwise the canonical unit lists the dimension, so two
written units agree in the one exactly where they agree in the other.
-/

set_option autoImplicit false

namespace UnitCalculator.Units

theorem Written.containsFraction_eq {u : Term} (h : Written u) : containsFraction u = false := by
  induction h with
  | symbol _ => rfl
  | one => rfl
  | times _ _ hu hv => simp [containsFraction, hu, hv]
  | slash _ _ hu hv => simp [containsFraction, hu, hv]
  | power _ _ hu => simp [containsFraction, Term.int, hu]

theorem Written.collect_eq {u : Term} (h : Written u) : collect u = ofWritten u := by
  have hf := h.containsFraction_eq
  cases h with
  | symbol _ => rfl
  | one => rfl
  | times _ _ | slash _ _ | power _ _ =>
    simp only [containsFraction, Term.int] at hf ⊢
    rw [collect, if_pos (by simpa [containsFraction] using hf)]

theorem replaceCompounds_atomic {u : Term} (h : Flat u)
    (ha : ∀ s ∈ symbols u, compound? s = none) : replaceCompounds u = .ok ⟨1, u, true⟩ := by
  have one_mul : (1 : Float) * 1 = 1 := by decide
  have one_div : (1 : Float) / 1 = 1 := by decide
  have one_ne : ((1 : Float) == 0) = false := by decide
  induction h with
  | symbol s => simp [replaceCompounds, ha s (by simp [symbols])]
  | int n u => simp [replaceCompounds]
  | times _ _ hu hv =>
    simp only [symbols, List.mem_append] at ha
    simp [replaceCompounds, hu fun s hs => ha s (.inl hs), hv fun s hs => ha s (.inr hs), bind,
      Except.bind, one_mul]
  | slash _ _ hu hv =>
    simp only [symbols, List.mem_append] at ha
    simp [replaceCompounds, hu fun s hs => ha s (.inl hs), hv fun s hs => ha s (.inr hs), bind,
      Except.bind, divideFactors, one_div, one_ne]

/-- The lists of counts that a unit is collected into. -/
structure Collected (c : Scaled) (d : Dimension) : Prop where
  numerator : Counted c.numerator
  denominator : Counted c.denominator
  dimension_eq : ∀ s, s ≠ dimensionless → d s = c.numerator.count s - c.denominator.count s

theorem Collected.denotes {c : Scaled} {d : Dimension} (h : Collected c d)
    (h₁ : d dimensionless = 0) : Denotes (cancelled c.numerator c.denominator) d :=
  denotes_cancelled h.numerator.sorted h.denominator.sorted h.numerator.positive
    h.denominator.positive h.dimension_eq h₁

/-- Reducing and counting a unit of atomic symbols collects its dimension. -/
theorem collected_of_atomic {u : Term} (h : Flat u) (ha : ∀ s ∈ symbols u, compound? s = none)
    (f : Option Float) :
    ∃ x y, counts (reduce u) = .ok (x, y) ∧ Collected ⟨f, x, y⟩ (dimension u) := by
  obtain ⟨x, y, he, hx, hy, hc⟩ := counts_reduced h.reduced_reduce
  refine ⟨x, y, he, hx, hy, fun s hs => ?_⟩
  rw [dimension_eq_tally h ha hs, ← tally_reduce h, ← hc]

theorem ofWritten_tooLarge {u : Term} (hu : Written u) (h : TooLarge u) :
    ∃ n, ofWritten u = .error (.exponentTooLarge n) := by
  rcases hu.expands 1 with ⟨n, he, _⟩ | ⟨v, _, hx, _⟩
  · exact ⟨n, by simp [ofWritten, he, bind, Except.bind]⟩
  · exact absurd (tooLarge_iff_exceeds.1 h) hx

theorem ofWritten_not_tooLarge {u : Term} (hu : Written u) (h : ¬TooLarge u) :
    ofWritten u = .error .scaleVanished ∨
      ∃ c, ofWritten u = .ok c ∧ Collected c (dimension u) := by
  rcases hu.expands 1 with ⟨n, _, hx⟩ | ⟨v, he, _, hv⟩
  · exact absurd (tooLarge_iff_exceeds.2 hx) h
  rcases toAtomic_flat hv.flat (n := longestChain) (k := maxPasses) (by decide)
    (fun s _ => compound?_repeat_base s) none with hr | ⟨f, w, hr, hw⟩
  · exact .inl (by simp [ofWritten, he, hr, bind, Except.bind])
  · obtain ⟨x, y, hc, hd⟩ := collected_of_atomic hw.flat hw.atomic f
    refine .inr ⟨⟨f, x, y⟩, by simp [ofWritten, he, hr, hc, bind, Except.bind], ?_⟩
    rwa [← hv.dimension_eq, ← hw.dimension_eq]

theorem ofWritten_plain {u : Term} (hu : Written u) (h : ¬TooLarge u) (hp : Plain u) :
    ∃ c, ofWritten u = .ok c ∧ c.factor = none := by
  rcases hu.expands 1 with ⟨n, _, hx⟩ | ⟨v, he, _, hv⟩
  · exact absurd (tooLarge_iff_exceeds.2 hx) h
  have ha : ∀ s ∈ symbols v, compound? s = none := by
    intro s hs
    obtain ⟨k, hk⟩ := hv.symbols_under s hs
    exact hp k s hk
  have hr : toAtomic maxPasses none v = .ok (none, v) := by
    simp [maxPasses, toAtomic, replaceCompounds_atomic hv.flat ha, bind, Except.bind]
  obtain ⟨x, y, hc, _⟩ := collected_of_atomic hv.flat ha none
  exact ⟨⟨none, x, y⟩, by simp [ofWritten, he, hr, hc, bind, Except.bind], rfl⟩

theorem canonicalize_bracketed {u : Term} (hu : Written u) (a : Number) :
    canonicalize a (.bracketed u) = (ofWritten u).map fun c =>
      ⟨match c.factor with
        | some f => a.scale f
        | none => a, cancelled c.numerator c.denominator⟩ := by
  rw [canonicalize, collect, hu.collect_eq]
  · cases ofWritten u <;> rfl
  · exact fun h => Term.noConfusion h

theorem Written.collected {u : Term} (hu : Written u) {c : Scaled} (hc : collect u = .ok c) :
    Collected c (dimension u) := by
  rw [hu.collect_eq] at hc
  by_cases h : TooLarge u
  · obtain ⟨n, he⟩ := ofWritten_tooLarge hu h
    rw [he] at hc
    cases hc
  · rcases ofWritten_not_tooLarge hu h with he | ⟨x, he, hx⟩
    · rw [he] at hc
      cases hc
    · rw [he] at hc
      cases hc
      exact hx

theorem canonicalize_of_collect {u : Term} (hu : u ≠ .absent) {a : Number} {q : Quantity}
    (h : canonicalize a u = .ok q) :
    ∃ c, collect u = .ok c ∧ q.unit = cancelled c.numerator c.denominator := by
  rw [canonicalize] at h
  · cases hc : collect u with
    | error e =>
      rw [hc] at h
      cases h
    | ok c =>
      rw [hc] at h
      cases h
      exact ⟨c, rfl, rfl⟩
  · exact hu

theorem Written.denotes {u : Term} (hu : Written u) {a : Number} {q : Quantity}
    (h : canonicalize a (.bracketed u) = .ok q) : Denotes q.unit (dimension u) := by
  obtain ⟨c, hc, hq⟩ := canonicalize_of_collect Term.noConfusion h
  rw [hq]
  exact (hu.collected hc).denotes (dimension_dimensionless hu)

theorem canonicalize_symbol {s : String} (hs : s ≠ dimensionless) (hc : compound? s = none)
    (a : Number) : canonicalize a (.bracketed (.name s)) = .ok ⟨a, some ⟨[(s, 1)], []⟩⟩ := by
  have hu : Written (.name s) := .symbol hs
  have hl : ¬TooLarge (.name s) := by
    rintro ⟨k, v, n, h, _⟩
    cases h
  have hp : Plain (.name s) := by
    intro k t h
    cases h
    exact hc
  obtain ⟨c, he, hf⟩ := ofWritten_plain hu hl hp
  have hq : canonicalize a (.bracketed (.name s)) =
      .ok ⟨a, cancelled c.numerator c.denominator⟩ := by
    rw [canonicalize_bracketed hu, he, Except.map, hf]
  have hunit : cancelled c.numerator c.denominator = some ⟨[(s, 1)], []⟩ :=
    ((hu.denotes hq).eq_iff (denotes_symbol hc)).2 rfl
  rw [hq, hunit]

/-- The canonical unit of a written unit is the normal form of its dimension. -/
theorem canonicalize_written {u : Term} (hu : Written u) (a : Number) :
    ((∃ n, canonicalize a (.bracketed u) = .error (.exponentTooLarge n)) ↔ TooLarge u) ∧
      (∀ e, canonicalize a (.bracketed u) = .error e → TooLarge u ∨ e = .scaleVanished) ∧
      (∀ p, canonicalize a (.bracketed u) = .ok p → Denotes p.unit (dimension u)) ∧
      (∀ v b p q, Written v → canonicalize a (.bracketed u) = .ok p →
        canonicalize b (.bracketed v) = .ok q → (p.unit = q.unit ↔ dimension u = dimension v)) ∧
      (Plain u → ¬TooLarge u → ∃ d, canonicalize a (.bracketed u) = .ok ⟨a, d⟩) := by
  refine ⟨⟨?_, ?_⟩, ?_, fun p hp => hu.denotes hp, ?_, ?_⟩
  · rintro ⟨n, hn⟩
    by_contra h
    rw [canonicalize_bracketed hu] at hn
    rcases ofWritten_not_tooLarge hu h with he | ⟨c, he, _⟩
    · simp [he, Except.map] at hn
    · simp [he, Except.map] at hn
  · intro h
    obtain ⟨n, he⟩ := ofWritten_tooLarge hu h
    exact ⟨n, by rw [canonicalize_bracketed hu, he, Except.map]⟩
  · intro e he
    by_cases h : TooLarge u
    · exact .inl h
    rw [canonicalize_bracketed hu] at he
    rcases ofWritten_not_tooLarge hu h with hs | ⟨c, hc, _⟩
    · rw [hs, Except.map, Except.error.injEq] at he
      exact .inr he.symm
    · simp [hc, Except.map] at he
  · intro v b p q hv hp hq
    exact (hu.denotes hp).eq_iff (hv.denotes hq)
  · intro hp h
    obtain ⟨c, he, hf⟩ := ofWritten_plain hu h hp
    exact ⟨_, by rw [canonicalize_bracketed hu, he, Except.map, hf]⟩

def acceleration : Term := .binary .slash (.name "m") (.binary .caret (.name "s") (.int 2))

theorem written_acceleration : Written acceleration :=
  .slash (.symbol (by decide)) (.power (by decide) (.symbol (by decide)))

theorem canonicalize_acceleration :
    Written acceleration ∧ ∃ d, canonicalize (.int 3) (.bracketed acceleration) =
      .ok ⟨.int 3, d⟩ ∧ Denotes d (dimension acceleration) := by
  have hp : Plain acceleration := by
    intro k s hs
    cases hs with
    | left _ hs =>
      cases hs
      decide
    | right _ hs =>
      cases hs with
      | left h => exact absurd rfl h
      | right h => exact absurd rfl h
      | power _ hs =>
        cases hs
        decide
  have hl : ¬TooLarge acceleration := by
    rintro ⟨k, v, n, hs, hn⟩
    cases hs with
    | left _ hs => cases hs
    | right _ hs =>
      cases hs with
      | here => exact absurd hn (by decide)
      | left h => exact absurd rfl h
      | right h => exact absurd rfl h
      | power _ hs => cases hs
  obtain ⟨_, _, hd, _, hv⟩ := canonicalize_written written_acceleration (.int 3)
  obtain ⟨d, he⟩ := hv hp hl
  exact ⟨written_acceleration, d, he, hd _ he⟩

end UnitCalculator.Units
