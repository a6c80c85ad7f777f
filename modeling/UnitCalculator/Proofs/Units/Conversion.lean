import UnitCalculator.Proofs.Arithmetic.Rounding
import UnitCalculator.Proofs.Units.NormalForm
import UnitCalculator.Proofs.Units.Dimension

/-!
What a compound symbol is worth. The rows of the table that lead on from it multiply to a number,
exactly; numbers that are made canonical have that factor up to the roundings on the way. The factors of
a chain are multiplied with each other before the number is, and in another order there may be
another rounding: two floats for one quantity.
-/

set_option autoImplicit false

namespace UnitCalculator.Units

open Floats

/-! Chains of rows -/

def rate (s : String) : ℚ := (compound? s).elim 1 fun c => toRat c.factor

def worthOf : ℕ → String → ℚ
  | 0, _ => 1
  | n + 1, s => rate s * worthOf n (base s)

/-- How many of the atomic symbol that it leads to make one of a symbol, by the table. -/
def worth (s : String) : ℚ := worthOf longestChain s

theorem worthOf_of_atomic {s : String} (h : compound? s = none) (n : ℕ) : worthOf n s = 1 := by
  induction n with
  | zero => rfl
  | succ n ih => rw [worthOf, base_of_atomic h, ih, rate, h, Option.elim_none, one_mul]

theorem worthOf_succ {n : ℕ} {s : String} (h : compound? (Nat.repeat base n s) = none) :
    worthOf (n + 1) s = worthOf n s := by
  induction n generalizing s with
  | zero => exact worthOf_of_atomic h 1
  | succ n ih => rw [worthOf, ih (repeat_base_succ n s ▸ h), worthOf]

theorem worth_eq (s : String) : worth s = rate s * worth (base s) := by
  rw [worth, ← worthOf_succ (compound?_repeat_base s), worthOf, worth]

def multiplied : ℕ → Option Float → String → Option Float
  | 0, f, _ => f
  | n + 1, f, s => match compound? s with
    | some c => multiplied n (some (f.getD 1 * c.factor)) c.base
    | none => f

theorem toAtomic_symbol {n k : ℕ} (hk : n < k) {s : String}
    (h : compound? (Nat.repeat base n s) = none) (f : Option Float) :
    toAtomic k f (.name s) = .ok (multiplied n f s, .name (Nat.repeat base n s)) := by
  induction n generalizing k f s with
  | zero =>
    obtain ⟨k, rfl⟩ : ∃ j, k = j + 1 := ⟨k - 1, by omega⟩
    have hs : compound? s = none := h
    simp [toAtomic, replaceCompounds, hs, bind, Except.bind, multiplied, Nat.repeat]
  | succ n ih =>
    obtain ⟨k, rfl⟩ : ∃ j, k = j + 1 := ⟨k - 1, by omega⟩
    cases hs : compound? s with
    | none =>
      simp [toAtomic, replaceCompounds, hs, bind, Except.bind, multiplied, repeat_base_of_atomic hs]
    | some c =>
      have hbase : base s = c.base := by rw [base, hs, Option.elim_some]
      rw [repeat_base_succ, hbase] at h ⊢
      rw [multiplied, hs, ← ih (k := k) (by omega) h]
      simp [toAtomic, replaceCompounds, hs, bind, Except.bind]

/-! Numbers with a symbol -/

theorem collect_unwrap (u : Term) : collect (unwrap u) = collect u := by
  induction u with
  | bracketed u ih => rw [unwrap, ih, collect]
  | _ => rfl

theorem collect_symbol (s : String) : collect (.name s) =
    .ok ⟨multiplied longestChain none s, [(Nat.repeat base longestChain s, 1)], []⟩ := by
  have hexpand : expandExponents 1 (.name s) = .ok (.name s) := rfl
  have hreduce (t : String) : reduce (.name t) = .name t := reduce_of_not rfl
  show ofWritten (.name s) = _
  have hatomic := toAtomic_symbol (show longestChain < maxPasses by decide)
    (compound?_repeat_base s) none
  rw [ofWritten, hexpand]
  simp only [bind, Except.bind, hatomic, hreduce]
  rfl

theorem canonicalize_of_unwrap {u : Term} {s : String} (h : unwrap u = .name s) (a : Number) :
    canonicalize a u = .ok ⟨((multiplied longestChain none s).elim a a.scale),
      cancelled [(Nat.repeat base longestChain s, 1)] []⟩ := by
  have hu : u ≠ .absent := by
    rintro rfl
    cases h
  rw [canonicalize, ← collect_unwrap, h, collect_symbol]
  · cases multiplied longestChain none s <;> rfl
  · exact hu

/-! Roundings -/

theorem factor_bits : ∀ c ∈ table, c.factor.isFinite = true ∧
    2 ^ 52 ≤ (Binary.ofFloat c.factor).mantissa ∧ -63 ≤ (Binary.ofFloat c.factor).exponent ∧
      (Binary.ofFloat c.factor).exponent ≤ -42 := by
  decide

/-- The factors of the table have all their bits, and three or four digits. -/
theorem sized_factor {c : Compound} (hc : c ∈ table) : Full c.factor ∧ Sized 1 (toRat c.factor) := by
  obtain ⟨hf, hl, he, he'⟩ := factor_bits c hc
  obtain ⟨hfull, habs⟩ := full_of_bits hf hl
  have hg := (ofFloat_bounds c.factor).1
  refine ⟨hfull, .inr ?_⟩
  rw [habs]
  generalize (Binary.ofFloat c.factor).mantissa = m, (Binary.ofFloat c.factor).exponent = e at *
  have hlow : (2 : ℚ) ^ 52 ≤ m := by exact_mod_cast hl
  have hhigh : (m : ℚ) ≤ 2 ^ 53 := by exact_mod_cast hg.le
  have hmin : (2 : ℚ) ^ (-63 : ℤ) ≤ 2 ^ e := zpow_le_zpow_right₀ (by norm_num) he
  have hmax : (2 : ℚ) ^ e ≤ 2 ^ (-42 : ℤ) := zpow_le_zpow_right₀ (by norm_num) he'
  constructor
  · calc (m : ℚ) * 2 ^ e ≤ 2 ^ 53 * 2 ^ (-42 : ℤ) := by gcongr
      _ = 2048 ^ 1 := by norm_num
  · calc (1 : ℚ) = 2 ^ 52 * 2 ^ (-63 : ℤ) * 2048 ^ 1 := by norm_num
      _ ≤ m * 2 ^ e * 2048 ^ 1 := by gcongr

theorem rate_of_compound {s : String} {c : Compound} (h : compound? s = some c) :
    rate s = toRat c.factor ∧ base s = c.base := by
  rw [rate, base, h]
  exact ⟨rfl, rfl⟩

theorem sized_worthOf (n : ℕ) (s : String) : Sized n (worthOf n s) := by
  induction n generalizing s with
  | zero => exact sized_one
  | succ n ih =>
    cases h : compound? s with
    | none => exact worthOf_of_atomic h (n + 1) ▸ sized_one.mono (Nat.zero_le _)
    | some c =>
      obtain ⟨hrate, -⟩ := rate_of_compound h
      rw [worthOf, hrate, Nat.add_comm]
      exact (sized_factor (mem_table_of_compound? h).1).2.mul (ih _)

/-- Each row of a chain rounds once. -/
theorem rounded_multiplied {n m j : ℕ} {q : ℚ} {f : Option Float} {s : String}
    (hf : Rounded m q (f.getD 1)) (hq : Sized j q) (hm : m + n ≤ 16) (hj : j + n ≤ 20) :
    Rounded (m + n) (q * worthOf n s) ((multiplied n f s).getD 1) := by
  induction n generalizing m j q f s with
  | zero => rwa [worthOf, mul_one]
  | succ n ih =>
    cases h : compound? s with
    | none =>
      rw [multiplied, h, worthOf_of_atomic h, mul_one]
      exact hf.mono (Nat.le_add_right _ _)
    | some c =>
      obtain ⟨hrate, hbase⟩ := rate_of_compound h
      obtain ⟨hfull, hsize⟩ := sized_factor (mem_table_of_compound? h).1
      have hstep : Rounded (m + 0 + 1) (q * toRat c.factor) (f.getD 1 * c.factor) :=
        hf.mul hfull.rounded (hq.mul hsize) (by omega) (by omega)
      rw [multiplied, h, worthOf, hrate, hbase, ← mul_assoc, show m + (n + 1) = m + 0 + 1 + n by omega]
      exact ih (f := some (f.getD 1 * c.factor)) hstep (hq.mul hsize) (by omega) (by omega)

theorem exists_multiplied (n : ℕ) (f : Float) (s : String) :
    ∃ g, multiplied n (some f) s = some g := by
  induction n generalizing f s with
  | zero => exact ⟨f, rfl⟩
  | succ n ih =>
    rw [multiplied]
    split
    · exact ih _ _
    · exact ⟨f, rfl⟩

theorem multiplied_eq_none_iff {s : String} :
    multiplied longestChain none s = none ↔ compound? s = none := by
  rw [longestChain, multiplied]
  cases h : compound? s with
  | none => simp
  | some c =>
    obtain ⟨g, hg⟩ := exists_multiplied 2 ((none : Option Float).getD 1 * c.factor) c.base
    simp only [hg, reduceCtorEq]

theorem worth_of_atomic {s : String} (h : compound? s = none) : worth s = 1 :=
  worthOf_of_atomic h longestChain

/-- A float that is scaled by a chain is worth what it was, in atomic symbols, up to the roundings. -/
theorem rounded_scaled {m j : ℕ} {q : ℚ} {x : Float} (hx : Rounded m q x) (hq : Sized j q)
    (hm : m + longestChain ≤ 16) (hj : j + longestChain ≤ 20) (s : String) :
    ∃ y, (multiplied longestChain none s).elim (.real x) (Number.real x).scale = .real y ∧
      Rounded (m + longestChain + 1) (q * worth s) y := by
  have hone : Rounded 0 1 ((none : Option Float).getD 1) := rounded_one
  have hchain := rounded_multiplied (n := longestChain) (s := s) hone sized_one (by decide)
    (by decide)
  rw [zero_add, one_mul] at hchain
  cases h : multiplied longestChain none s with
  | none =>
    rw [worth_of_atomic (multiplied_eq_none_iff.1 h), mul_one]
    exact ⟨x, rfl, hx.mono (by omega)⟩
  | some f =>
    rw [h] at hchain
    exact ⟨x * f, rfl, hx.mul hchain (hq.mul (sized_worthOf longestChain s)) hj hm⟩

theorem repeat_base_base (s : String) :
    Nat.repeat base longestChain (base s) = Nat.repeat base longestChain s := by
  rw [← repeat_base_succ, Nat.repeat, base_of_atomic (compound?_repeat_base s)]

theorem one_mul_factor : ∀ c ∈ table, 1 * c.factor = c.factor := by
  decide +kernel

theorem multiplied_of_atomic_base {s : String} {c : Compound} (hc : compound? s = some c)
    (h : compound? c.base = none) : multiplied longestChain none s = some c.factor := by
  have hone := one_mul_factor c (mem_table_of_compound? hc).1
  rw [longestChain, multiplied, hc]
  simp only [multiplied, h, Option.getD_none, hone]

theorem drift_le {n : ℕ} (h : n ≤ 5) : drift n ≤ 2 ^ (-50 : ℤ) :=
  (drift_mono h).trans (by norm_num [drift])

/-- A row of the table is an identity up to roundings. A number with a compound symbol and its product
with the factor of the row, which has the base for its unit, have the same canonical unit; and both
are, up to the last bits, what the number is worth by the exact product of all factors. They are the
same quantity if they are rounded alike, as they are where the base is atomic. -/
theorem sameQuantity_row {s : String} {c : Compound} (hc : compound? s = some c) {v : ℤ}
    (hv : v.natAbs ≤ 2 ^ 53) {u w : Term} (hu : unwrap u = .name s) (hw : unwrap w = .name c.base) :
    ∃ x y : Float, ∃ unit : Option Fraction,
      canonicalize (.int v) u = .ok ⟨.real x, unit⟩ ∧
      canonicalize (.real (Float.ofInt v * c.factor)) w = .ok ⟨.real y, unit⟩ ∧
      (x.isFinite = true ∧ |toRat x - v * worth s| ≤ 2 ^ (-50 : ℤ) * |v * worth s|) ∧
      (y.isFinite = true ∧ |toRat y - v * worth s| ≤ 2 ^ (-50 : ℤ) * |v * worth s|) ∧
      sameQuantity (.int v, u) (.real (Float.ofInt v * c.factor), w) = .ok (x == y) ∧
      (compound? c.base = none → (x == y) = true) := by
  obtain ⟨hrate, hbase⟩ := rate_of_compound hc
  obtain ⟨hmem, -⟩ := mem_table_of_compound? hc
  obtain ⟨hfull, hsize⟩ := sized_factor hmem
  have hint := rounded_ofInt hv
  have hsized := sized_intCast hv
  have hproduct : Rounded 1 (v * toRat c.factor) (Float.ofInt v * c.factor) :=
    hint.mul hfull.rounded (hsized.mul hsize) (by decide) (by decide)
  obtain ⟨x, hx, hxr⟩ := rounded_scaled hint hsized (by decide) (by decide) s
  obtain ⟨y, hy, hyr⟩ := rounded_scaled hproduct (hsized.mul hsize) (by decide) (by decide) c.base
  have hworth : v * toRat c.factor * worth c.base = v * worth s := by
    rw [worth_eq s, hrate, hbase, mul_assoc]
  rw [hworth] at hyr
  have hscale : (multiplied longestChain none s).elim (.int v) (Number.int v).scale = .real x := by
    cases hm : multiplied longestChain none s with
    | none => exact nomatch hc.symm.trans (multiplied_eq_none_iff.1 hm)
    | some f => rwa [hm] at hx
  have hleft := canonicalize_of_unwrap hu (.int v)
  have hright := canonicalize_of_unwrap hw (.real (Float.ofInt v * c.factor))
  rw [hscale] at hleft
  rw [hy, ← hbase, repeat_base_base] at hright
  refine ⟨x, y, _, hleft, hright, ⟨hxr.full.isFinite, hxr.near.trans ?_⟩,
    ⟨hyr.full.isFinite, hyr.near.trans ?_⟩, ?_, fun hatomic => ?_⟩
  · exact mul_le_mul_of_nonneg_right (drift_le (by decide)) (abs_nonneg _)
  · exact mul_le_mul_of_nonneg_right (drift_le (by decide)) (abs_nonneg _)
  · rw [sameQuantity, hleft, hright]
    simp [bind, Except.bind, Number.equals]
  · rw [multiplied_of_atomic_base hc hatomic] at hx
    rw [multiplied_eq_none_iff.2 hatomic] at hy
    cases hx
    cases hy
    exact beq_self hproduct.full.isFinite

theorem sameQuantity_row_yard : compound? "yd" = some ⟨"yd", 3, "feet"⟩ ∧
    (1 : ℤ).natAbs ≤ 2 ^ 53 ∧ unwrap (.bracketed (.name "yd")) = .name "yd" ∧
    unwrap (.bracketed (.name "feet")) = .name "feet" ∧
    ∃ x y : Float, ∃ unit : Option Fraction,
      canonicalize (.int 1) (.bracketed (.name "yd")) = .ok ⟨.real x, unit⟩ ∧
      canonicalize (.real (Float.ofInt 1 * 3)) (.bracketed (.name "feet")) = .ok ⟨.real y, unit⟩ ∧
      (x.isFinite = true ∧
        |toRat x - (1 : ℤ) * worth "yd"| ≤ 2 ^ (-50 : ℤ) * |(1 : ℤ) * worth "yd"|) ∧
      (y.isFinite = true ∧
        |toRat y - (1 : ℤ) * worth "yd"| ≤ 2 ^ (-50 : ℤ) * |(1 : ℤ) * worth "yd"|) ∧
      sameQuantity (.int 1, .bracketed (.name "yd"))
        (.real (Float.ofInt 1 * 3), .bracketed (.name "feet")) = .ok (x == y) ∧
      (compound? "feet" = none → (x == y) = true) :=
  have hc : compound? "yd" = some ⟨"yd", 3, "feet"⟩ := rfl
  ⟨hc, by decide, rfl, rfl, sameQuantity_row hc (by decide) rfl rfl⟩

/-- But the last bits count: a yard is not the quantity of three feet, nor are three feet that of
thirty-six inches. -/
theorem sameQuantity_row_rounded :
    compound? "yd" = some ⟨"yd", 3, "feet"⟩ ∧ compound? "feet" = some ⟨"feet", 12, "in"⟩ ∧
    sameQuantity (.int 1, .bracketed (.name "yd"))
      (.real (Float.ofInt 1 * 3), .bracketed (.name "feet")) = .ok false ∧
    sameQuantity (.int 3, .bracketed (.name "feet"))
      (.real (Float.ofInt 3 * 12), .bracketed (.name "in")) = .ok false := by
  have hyard : multiplied longestChain none "yd" = some (1 * 3 * 12 * 0.0254) := rfl
  have hfeet : multiplied longestChain none "feet" = some (1 * 12 * 0.0254) := rfl
  have hinch : multiplied longestChain none "in" = some (1 * 0.0254) := rfl
  have hthree : (Float.ofInt 1 * (1 * 3 * 12 * 0.0254) ==
      Float.ofInt 1 * 3 * (1 * 12 * 0.0254)) = false := by decide +kernel
  have hdozen : (Float.ofInt 3 * (1 * 12 * 0.0254) ==
      Float.ofInt 3 * 12 * (1 * 0.0254)) = false := by decide +kernel
  refine ⟨rfl, rfl, ?_, ?_⟩
  · rw [sameQuantity, canonicalize_of_unwrap (s := "yd") rfl, hyard,
      canonicalize_of_unwrap (s := "feet") rfl, hfeet]
    simp [bind, Except.bind, Number.scale, Number.equals, hthree]
  · rw [sameQuantity, canonicalize_of_unwrap (s := "feet") rfl, hfeet,
      canonicalize_of_unwrap (s := "in") rfl, hinch]
    simp [bind, Except.bind, Number.scale, Number.equals, hdozen]

end UnitCalculator.Units
