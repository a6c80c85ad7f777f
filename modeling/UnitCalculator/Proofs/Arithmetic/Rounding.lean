import UnitCalculator.Proofs.Arithmetic.Floats

/-!
Products of floats as rational numbers. The bits that a product has too many are rounded to the
nearest, so it is off by half of its last bit at most unless it is near the ends of the range, and the
errors of several factors add up. An integer with no more bits than a mantissa is a float as it is.
-/

set_option autoImplicit false

namespace UnitCalculator

open Float.Model Float.Model.UnpackedFloat

namespace Floats

/-! Rounding to the nearest -/

/-- Where `x` is between the mantissa and the next one, by the bits that have been cut off. -/
def Marks (em : ExtendedMantissa) (x : ℚ) : Prop :=
  match em.accuracy with
  | .exact => x = em.mantissa
  | .inexact .lt => em.mantissa < x ∧ x < em.mantissa + 1 / 2
  | .inexact .eq => x = em.mantissa + 1 / 2
  | .inexact .gt => em.mantissa + 1 / 2 < x ∧ x < em.mantissa + 1

theorem Marks.shiftRightOne {em : ExtendedMantissa} {x : ℚ} (h : Marks em x) :
    Marks em.shiftRightOne (x / 2) := by
  obtain ⟨m, round, sticky⟩ := em
  have hm : ((m % 2 : ℕ) : ℚ) + 2 * ((m / 2 : ℕ) : ℚ) = m := by exact_mod_cast Nat.mod_add_div m 2
  have hodd : (1 != 0) = true := rfl
  -- the last bit of the mantissa is the next round bit, and the sticky bit gathers the other two
  obtain hbit | hbit := Nat.mod_two_eq_zero_or_one m <;> rw [hbit] at hm <;> push_cast at hm <;>
    cases round <;> cases sticky <;>
    simp only [Marks, ExtendedMantissa.shiftRightOne, ExtendedMantissa.accuracy, hbit, hodd,
      bne_self_eq_false, Bool.or_self, Bool.or_true, Bool.true_or] at h ⊢
  all_goals first
    | linarith
    | exact ⟨by linarith, by linarith⟩

theorem Marks.shift {em : ExtendedMantissa} {x : ℚ} (h : Marks em x) (k : ℕ) :
    Marks (em >>> k) (x / 2 ^ k) := by
  show Marks (Nat.repeat ExtendedMantissa.shiftRightOne k em) _
  induction k with
  | zero => simpa [Nat.repeat] using h
  | succ k ih =>
    rw [pow_succ, ← div_div]
    exact ih.shiftRightOne

theorem Marks.abs_rounded_sub_le {em : ExtendedMantissa} {x : ℚ} (h : Marks em x) :
    |em.roundedMantissa - x| ≤ 1 / 2 := by
  obtain ⟨m, round, sticky⟩ := em
  rw [abs_le]
  cases round <;> cases sticky <;>
    simp only [Marks, ExtendedMantissa.accuracy, ExtendedMantissa.roundedMantissa,
      Accuracy.roundToNearestEven] at h ⊢
  · constructor <;> linarith
  · constructor <;> linarith
  · obtain hbit | hbit := Nat.mod_two_eq_zero_or_one m <;> rw [hbit] <;> push_cast <;>
      constructor <;> linarith
  · push_cast
    constructor <;> linarith

theorem rounded_bounds {r : ℕ} {x : ℚ} (hl : 2 ^ 52 ≤ x) (hg : x < 2 ^ 53)
    (h : |(r : ℚ) - x| ≤ 1 / 2) : 2 ^ 52 ≤ r ∧ r ≤ 2 ^ 53 := by
  obtain ⟨hbelow, habove⟩ := abs_le.1 h
  have hlow : ((2 ^ 52 : ℕ) : ℚ) < (r + 1 : ℕ) := by
    push_cast
    linarith
  have hhigh : (r : ℚ) < (2 ^ 53 + 1 : ℕ) := by
    push_cast
    linarith
  exact ⟨Nat.lt_succ_iff.1 (Nat.cast_lt.1 hlow), Nat.lt_succ_iff.1 (Nat.cast_lt.1 hhigh)⟩

/-- What the first shift leaves is the value, though one bit more has to go if it is a power of
two. -/
theorem round_of_shift (s : Sign) {m : ℕ} {e f : ℤ} {em : ExtendedMantissa}
    (h : shiftToTargetExponent Format.binary64 m e .exact = (em, f)) (hf : -1074 ≤ f)
    (hl : 2 ^ 52 ≤ em.roundedMantissa) (hg : em.roundedMantissa ≤ 2 ^ 53) :
    ∃ r g, ∃ hr : 0 < r, roundWithAccuracy Format.binary64 s m e .exact = .finite s r g hr ∧
      2 ^ 52 ≤ r ∧ r < 2 ^ 53 ∧ -1074 ≤ g ∧ g ≤ f + 1 ∧
      (r : ℚ) * 2 ^ g = em.roundedMantissa * 2 ^ f := by
  obtain hlt | heq := Nat.lt_or_eq_of_le hg
  · have hsecond := shiftToTargetExponent_exact hl hlt hf 0
    simp only [Nat.pow_zero, Nat.mul_one, Int.natCast_zero, Int.sub_zero] at hsecond
    refine ⟨em.roundedMantissa, f, by omega, ?_, hl, hlt, hf, by omega, rfl⟩
    unfold roundWithAccuracy
    simp only [h, hsecond]
    rw [dif_neg (by omega)]
  · have hsecond := shiftToTargetExponent_exact (le_refl (2 ^ 52)) (by norm_num)
      (show -1074 ≤ f + 1 by omega) 1
    have hm : 2 ^ 52 * 2 ^ 1 = em.roundedMantissa := heq.symm
    have hexp : f + 1 - (1 : ℕ) = f := by omega
    rw [hm, hexp] at hsecond
    refine ⟨2 ^ 52, f + 1, by norm_num, ?_, le_rfl, by norm_num, by omega, le_rfl, ?_⟩
    · unfold roundWithAccuracy
      simp only [h, hsecond]
      rw [dif_neg (by norm_num)]
    · rw [heq, zpow_add_one₀ (by norm_num)]
      push_cast
      ring

/-- A mantissa with too many bits is rounded to the nearest of 53, unless the last of these is below
the least bit of all. -/
theorem round_near (s : Sign) {m : ℕ} {e : ℤ} (hl : 2 ^ 52 ≤ m) (he : -1022 ≤ m.log2 + e) :
    ∃ r g, ∃ hr : 0 < r, roundWithAccuracy Format.binary64 s m e .exact = .finite s r g hr ∧
      2 ^ 52 ≤ r ∧ r < 2 ^ 53 ∧ -1074 ≤ g ∧ g ≤ m.log2 + e - 51 ∧
      |(r : ℚ) * 2 ^ g - m * 2 ^ e| ≤ 2 ^ (-53 : ℤ) * (m * 2 ^ e) := by
  obtain ⟨k, hk⟩ := Nat.exists_eq_add_of_le ((Nat.le_log2 (by omega)).2 hl)
  have hshift : shiftToTargetExponent Format.binary64 m e .exact =
      ((⟨m, false, false⟩ : ExtendedMantissa) >>> k, e + k) := by
    have htarget : Format.binary64.targetExponent (totalExponent m e) = e + k := by
      rw [targetExponent_eq, hk]
      omega
    have hcount : (e + k - e).toNat = k := by omega
    unfold shiftToTargetExponent shiftToExponent
    simp only [htarget, hcount, ExtendedMantissa.ofMantissaAndAccuracy]
  have hnear := ((show Marks ⟨m, false, false⟩ m from rfl).shift k).abs_rounded_sub_le
  have hlow : (2 : ℚ) ^ 52 ≤ m / 2 ^ k := by
    rw [le_div_iff₀ (by positivity), ← pow_add, ← hk]
    exact_mod_cast Nat.log2_self_le (by omega)
  have hhigh : (m : ℚ) / 2 ^ k < 2 ^ 53 := by
    rw [div_lt_iff₀ (by positivity), ← pow_add, show 53 + k = m.log2 + 1 by omega]
    exact_mod_cast Nat.lt_log2_self
  obtain ⟨hr₁, hr₂⟩ := rounded_bounds hlow hhigh hnear
  obtain ⟨r, g, hr, hround, hrl, hrg, hgl, hgg, hvalue⟩ :=
    round_of_shift s hshift (by omega) hr₁ hr₂
  refine ⟨r, g, hr, hround, hrl, hrg, hgl, by omega, ?_⟩
  have hx : (m : ℚ) * 2 ^ e = m / 2 ^ k * 2 ^ (e + k) := by
    rw [zpow_add₀ (by norm_num), zpow_natCast]
    field_simp
  have hpos : (0 : ℚ) < 2 ^ (e + k) := by positivity
  rw [hvalue, hx, ← sub_mul, abs_mul, abs_of_pos hpos, ← mul_assoc]
  refine mul_le_mul_of_nonneg_right (hnear.trans ?_) hpos.le
  norm_num at hlow ⊢
  linarith

/-! Floats as rational numbers -/

def signum : Sign → ℤ
  | .positive => 1
  | .negative => -1

/-- The number that a float stands for, zero if it is none. -/
def toRat (x : Float) : ℚ :=
  match x.toModel.unpack with
  | .finite s m e _ => signum s * (m * 2 ^ e)
  | _ => 0

theorem toRat_finite {x : Float} {s : Sign} {m : ℕ} {e : ℤ} {hm : 0 < m}
    (h : x.toModel.unpack = .finite s m e hm) : toRat x = signum s * (m * 2 ^ e) := by
  unfold toRat
  rw [h]

theorem toRat_zero {x : Float} {s : Sign} (h : x.toModel.unpack = .zero s) : toRat x = 0 := by
  unfold toRat
  rw [h]

theorem signum_mul (s t : Sign) : signum (s * t) = signum s * signum t := by
  cases s <;> cases t <;> rfl

theorem abs_signum (s : Sign) : |(signum s : ℚ)| = 1 := by
  cases s <;> norm_num [signum]

theorem signum_neg (s : Sign) : signum (-s) = -signum s := by
  cases s <;> rfl

theorem toRat_neg (x : Float) : toRat (-x) = -toRat x := by
  cases hx : x.toModel.unpack with
  | finite s m e hm =>
    have hneg : (-x).toModel.unpack = .finite (-s) m e hm := by
      rw [unpack_neg, hx]
      rfl
    rw [toRat_finite hneg, toRat_finite hx, signum_neg, Int.cast_neg, neg_mul]
  | _ => simp [toRat, unpack_neg, hx, UnpackedFloat.neg]

def Full (x : Float) : Prop :=
  (∃ s, x.toModel.unpack = .zero s) ∨
    ∃ s m e, ∃ hm : 0 < m, x.toModel.unpack = .finite s m e hm ∧ 2 ^ 52 ≤ m ∧ m < 2 ^ 53

theorem Full.isFinite {x : Float} (h : Full x) : x.isFinite = true := by
  show x.toModel.unpack.isFinite = true
  obtain ⟨s, hu⟩ | ⟨s, m, e, hm, hu, -⟩ := h <;> rw [hu] <;> rfl

theorem Full.neg {x : Float} (h : Full x) : Full (-x) := by
  obtain ⟨s, hu⟩ | ⟨s, m, e, hm, hu, hl, hg⟩ := h
  · exact .inl ⟨-s, by rw [unpack_neg, hu]; rfl⟩
  · exact .inr ⟨-s, m, e, hm, by rw [unpack_neg, hu]; rfl, hl, hg⟩

theorem representable_finite (s : Sign) {m : ℕ} {e : ℤ} (hl : 2 ^ 52 ≤ m) (hg : m < 2 ^ 53)
    (he : -1074 ≤ e) (he' : e ≤ 971) (hm : 0 < m) : Representable (.finite s m e hm) := by
  refine ⟨packComponents _ s (BitVec.ofNat _ (e + 1075).toNat) (BitVec.ofNat _ (m - 2 ^ 52)), ?_⟩
  have hexp : (BitVec.ofNat 11 (e + 1075).toNat).toNat = (e + 1075).toNat := by
    rw [BitVec.toNat_ofNat]
    omega
  have hne {i : ℕ} (hi : i < 2048) (h : (e + 1075).toNat ≠ i) :
      BitVec.ofNat 11 (e + 1075).toNat ≠ BitVec.ofNat 11 i := by
    intro heq
    have heq := congrArg BitVec.toNat heq
    rw [hexp, BitVec.toNat_ofNat] at heq
    omega
  have hmax : BitVec.ofNat 11 (e + 1075).toNat ≠ -1#11 :=
    hne (i := 2047) (by norm_num) (by omega)
  have hmin : BitVec.ofNat 11 (e + 1075).toNat ≠ 0#11 := hne (by norm_num) (by omega)
  have hmantissa : (1#1 ++ BitVec.ofNat 52 (m - 2 ^ 52)).toNat = m := by
    rw [toNat_one_append, BitVec.toNat_ofNat]
    omega
  have hbias : ((Format.binary64.exponentBias : Nat) : Int) = 1023 := rfl
  unfold UnpackedFloat.unpack
  simp only [unpackExponent_packComponents, unpackMantissa_packComponents,
    unpackSign_packComponents, Sign.ofBitVec_toBitVec]
  rw [if_neg hmax, if_neg hmin]
  congr 1
  · exact hmantissa.symm
  · rw [hexp, hbias]
    omega

theorem two_zpow_lt_iff {a b : ℤ} : (2 : ℚ) ^ a < 2 ^ b ↔ a < b :=
  zpow_lt_zpow_iff_right₀ (by norm_num)

theorem log2_bounds {m : ℕ} {e a b : ℤ} (hm : m ≠ 0) (hl : (2 : ℚ) ^ a ≤ m * 2 ^ e)
    (hg : (m : ℚ) * 2 ^ e < 2 ^ b) : a ≤ m.log2 + e ∧ m.log2 + e < b := by
  have hpos : (0 : ℚ) < 2 ^ e := by positivity
  constructor
  · have hlt : (m : ℚ) < 2 ^ ((m.log2 + 1 : ℕ) : ℤ) := by
      exact_mod_cast Nat.lt_log2_self (n := m)
    have := hl.trans_lt (mul_lt_mul_of_pos_right hlt hpos)
    rw [← zpow_add₀ (by norm_num), two_zpow_lt_iff] at this
    omega
  · have hle : (2 : ℚ) ^ (m.log2 : ℤ) ≤ m := by exact_mod_cast Nat.log2_self_le hm
    have := (mul_le_mul_of_nonneg_right hle hpos.le).trans_lt hg
    rw [← zpow_add₀ (by norm_num), two_zpow_lt_iff] at this
    omega

/-- Neither too large for a float nor so small that the least exponent takes bits from it. -/
structure InRange (q : ℚ) : Prop where
  low : q ≠ 0 → 2 ^ (-1022 : ℤ) ≤ |q|
  high : |q| < 2 ^ (1023 : ℤ)

theorem toModel_mul (x y : Float) : (x * y).toModel =
    pack (UnpackedFloat.mul Format.binary64 x.toModel.unpack y.toModel.unpack) := rfl

theorem Full.mul_of_zero {x y : Float} {s : Sign} (hx : Full x) (hy : y.toModel.unpack = .zero s) :
    ∃ t, (x * y).toModel.unpack = .zero t ∧ (y * x).toModel.unpack = .zero t := by
  have hpack (t : Sign) : (pack (.zero t)).unpack = .zero t := by cases t <;> rfl
  have hcomm (t : Sign) : s * t = t * s := by cases s <;> cases t <;> rfl
  rw [toModel_mul, toModel_mul, hy]
  obtain ⟨t, hu⟩ | ⟨t, m, e, hm, hu, -⟩ := hx <;> rw [hu] <;>
    exact ⟨t * s, hpack (t * s), hcomm t ▸ hpack (s * t)⟩

/-- A product in range is rounded to the nearest float. -/
theorem Full.mul {x y : Float} (hx : Full x) (hy : Full y) (h : InRange (toRat x * toRat y)) :
    Full (x * y) ∧
      |toRat (x * y) - toRat x * toRat y| ≤ 2 ^ (-53 : ℤ) * |toRat x * toRat y| := by
  have hzero {s : Sign} (hu : (x * y).toModel.unpack = .zero s) (hp : toRat x * toRat y = 0) :
      Full (x * y) ∧
        |toRat (x * y) - toRat x * toRat y| ≤ 2 ^ (-53 : ℤ) * |toRat x * toRat y| :=
    ⟨.inl ⟨s, hu⟩, by rw [toRat_zero hu, hp]; simp⟩
  obtain ⟨s, hxu⟩ | ⟨s, m, e, hm, hxu, hml, hmg⟩ := id hx
  · obtain ⟨t, -, hu⟩ := hy.mul_of_zero hxu
    exact hzero hu (by rw [toRat_zero hxu, zero_mul])
  obtain ⟨t, hyu⟩ | ⟨t, n, f, hn, hyu, hnl, hng⟩ := id hy
  · obtain ⟨t, hu, -⟩ := hx.mul_of_zero hyu
    exact hzero hu (by rw [toRat_zero hyu, mul_zero])
  have hprod : toRat x * toRat y = signum (s * t) * ((m * n : ℕ) * 2 ^ (e + f)) := by
    rw [toRat_finite hxu, toRat_finite hyu, signum_mul, zpow_add₀ (by norm_num)]
    push_cast
    ring
  have habs : |toRat x * toRat y| = (m * n : ℕ) * 2 ^ (e + f) := by
    rw [hprod, abs_mul, abs_signum, one_mul, abs_of_nonneg (by positivity)]
  have hmn : 2 ^ 52 ≤ m * n := Nat.le_trans hml (Nat.le_mul_of_pos_right _ hn)
  have hne : toRat x * toRat y ≠ 0 := by
    rw [← abs_pos, habs]
    positivity
  obtain ⟨hlow, hhigh⟩ := log2_bounds (m := m * n) (e := e + f) (by omega)
    (habs ▸ h.low hne) (habs ▸ h.high)
  obtain ⟨r, g, hr, hround, hrl, hrg, hgl, hgg, herror⟩ := round_near (s * t) hmn hlow
  have hu : (x * y).toModel.unpack = .finite (s * t) r g hr := by
    rw [toModel_mul, hxu, hyu]
    show (pack (roundWithAccuracy Format.binary64 (s * t) (m * n) (e + f) .exact)).unpack = _
    rw [hround]
    exact (representable_finite (s * t) hrl hrg hgl (by omega) hr).unpack_pack
  refine ⟨.inr ⟨_, r, g, hr, hu, hrl, hrg⟩, ?_⟩
  rw [toRat_finite hu, habs, hprod, ← mul_sub, abs_mul, abs_signum, one_mul]
  exact herror

/-! Integers -/

theorem ofNat_full {n : ℕ} (hn : 0 < n) (hle : n ≤ 2 ^ 53) :
    Full (Float.ofNat n) ∧ toRat (Float.ofNat n) = n := by
  obtain hlt | rfl := Nat.lt_or_eq_of_le hle
  · have hlog : n.log2 ≤ 52 := Nat.lt_succ_iff.1 ((Nat.log2_lt (by omega)).2 hlt)
    obtain ⟨k, hk⟩ := Nat.exists_eq_add_of_le hlog
    have hpos := Nat.two_pow_pos k
    have hl : 2 ^ 52 ≤ n * 2 ^ k := by
      rw [hk, Nat.pow_add]
      exact Nat.mul_le_mul_right _ (Nat.log2_self_le (by omega))
    have hg : n * 2 ^ k < 2 ^ 53 := by
      rw [show 53 = n.log2 + 1 + k by omega, Nat.pow_add]
      exact Nat.mul_lt_mul_of_pos_right Nat.lt_log2_self hpos
    have hrep := representable_finite .positive hl hg (e := -k) (by omega) (by omega) (by omega)
    have hu : (Float.ofNat n).toModel.unpack = .finite .positive (n * 2 ^ k) (-k) (by omega) := by
      rw [ofNat_eq hl hg (x := Float.ofModel (pack (.finite .positive (n * 2 ^ k) (-k) (by omega))))
        hrep.unpack_pack]
      exact hrep.unpack_pack
    refine ⟨.inr ⟨_, _, _, _, hu, hl, hg⟩, ?_⟩
    rw [toRat_finite hu, zpow_neg, zpow_natCast]
    simp only [signum]
    push_cast
    field_simp
  · have hu : (Float.ofNat (2 ^ 53)).toModel.unpack = .finite .positive (2 ^ 52) 1 (by decide) := rfl
    refine ⟨.inr ⟨_, _, _, _, hu, by decide, by decide⟩, ?_⟩
    rw [toRat_finite hu]
    norm_num [signum]

theorem ofInt_full {v : ℤ} (h : v.natAbs ≤ 2 ^ 53) :
    Full (Float.ofInt v) ∧ toRat (Float.ofInt v) = v := by
  obtain hneg | rfl | hpos := lt_trichotomy v 0
  · obtain ⟨n, rfl⟩ : ∃ n : ℕ, v = -n := ⟨v.natAbs, by omega⟩
    obtain ⟨hfull, hvalue⟩ := ofNat_full (n := n) (by omega) (by omega)
    rw [ofInt_neg (by omega), toRat_neg, hvalue]
    exact ⟨hfull.neg, by push_cast; rfl⟩
  · exact ⟨.inl ⟨.positive, unpack_zero⟩, by rw [Int.cast_zero]; exact toRat_zero unpack_zero⟩
  · obtain ⟨n, rfl⟩ := Int.eq_ofNat_of_zero_le hpos.le
    exact ofNat_full (by omega) (by omega)

theorem full_of_bits {x : Float} (h : x.isFinite = true)
    (hl : 2 ^ 52 ≤ (Binary.ofFloat x).mantissa) :
    Full x ∧ |toRat x| = (Binary.ofFloat x).mantissa * 2 ^ (Binary.ofFloat x).exponent := by
  obtain ⟨hz, -⟩ | ⟨hm, hu⟩ := unpack_eq h
  · omega
  · refine ⟨.inr ⟨_, _, _, hm, hu, hl, (ofFloat_bounds x).1⟩, ?_⟩
    rw [toRat_finite hu, abs_mul, abs_signum, one_mul, abs_of_nonneg (by positivity)]

/-! Several roundings -/

/-- Zero, or no further from one than `j` factors of 2048 lead. -/
def Sized (j : ℕ) (q : ℚ) : Prop := q = 0 ∨ |q| ≤ 2048 ^ j ∧ 1 ≤ |q| * 2048 ^ j

theorem Sized.mul {i j : ℕ} {p q : ℚ} (hp : Sized i p) (hq : Sized j q) : Sized (i + j) (p * q) := by
  obtain rfl | ⟨hpg, hpl⟩ := hp
  · exact .inl (zero_mul q)
  obtain rfl | ⟨hqg, hql⟩ := hq
  · exact .inl (mul_zero p)
  refine .inr ⟨?_, ?_⟩
  · rw [abs_mul, pow_add]
    exact mul_le_mul hpg hqg (abs_nonneg q) (by positivity)
  · calc 1 ≤ |p| * 2048 ^ i * (|q| * 2048 ^ j) := one_le_mul_of_one_le_of_one_le hpl hql
      _ = |p * q| * 2048 ^ (i + j) := by rw [abs_mul, pow_add]; ring

theorem Sized.mono {i j : ℕ} {q : ℚ} (h : Sized i q) (hij : i ≤ j) : Sized j q := by
  have hpow : (2048 : ℚ) ^ i ≤ 2048 ^ j := pow_le_pow_right₀ (by norm_num) hij
  obtain rfl | ⟨hg, hl⟩ := h
  · exact .inl rfl
  · exact .inr ⟨hg.trans hpow, hl.trans (mul_le_mul_of_nonneg_left hpow (abs_nonneg q))⟩

theorem sized_one : Sized 0 1 := .inr (by norm_num)

theorem sized_intCast {v : ℤ} (h : v.natAbs ≤ 2 ^ 53) : Sized 5 v := by
  obtain rfl | hv := eq_or_ne v 0
  · exact .inl Int.cast_zero
  · have hl : (1 : ℚ) ≤ |(v : ℚ)| := by exact_mod_cast Int.one_le_abs hv
    have hg : |(v : ℚ)| ≤ 2 ^ 53 := by exact_mod_cast abs_le.2 ⟨by omega, by omega⟩
    refine .inr ⟨hg.trans (by norm_num), ?_⟩
    calc (1 : ℚ) ≤ |(v : ℚ)| * 1 := by rwa [mul_one]
      _ ≤ |(v : ℚ)| * 2048 ^ 5 := by gcongr; norm_num

/-- No float is near the ends of the range that is this near to a number of moderate size. -/
theorem Sized.inRange {q r : ℚ} (h : Sized 20 q) (hr : |r - q| ≤ 1 / 2 * |q|) : InRange r := by
  obtain rfl | ⟨hg, hl⟩ := h
  · obtain rfl : r = 0 := by simpa using hr
    exact ⟨fun h => absurd rfl h, by norm_num⟩
  · have hle := abs_sub_abs_le_abs_sub r q
    have hge := abs_sub_abs_le_abs_sub q r
    rw [abs_sub_comm] at hge
    have hpow : (2048 : ℚ) ^ 20 = 2 ^ (220 : ℤ) := by norm_num
    rw [hpow] at hg hl
    have hlow : (2 : ℚ) ^ (-220 : ℤ) ≤ |q| := by
      rw [zpow_neg]
      exact (inv_le_iff_one_le_mul₀ (by positivity)).2 hl
    have hmin : (2 : ℚ) ^ (-1022 : ℤ) < 2 ^ (-221 : ℤ) := two_zpow_lt_iff.2 (by norm_num)
    have hmax : (2 : ℚ) ^ (221 : ℤ) < 2 ^ (1023 : ℤ) := two_zpow_lt_iff.2 (by norm_num)
    refine ⟨fun _ => ?_, ?_⟩
    · calc (2 : ℚ) ^ (-1022 : ℤ) ≤ 2 ^ (-221 : ℤ) := hmin.le
        _ = 1 / 2 * 2 ^ (-220 : ℤ) := by norm_num
        _ ≤ 1 / 2 * |q| := by gcongr
        _ ≤ |r| := by linarith
    · calc |r| ≤ 2 * |q| := by linarith [abs_nonneg q]
        _ ≤ 2 * 2 ^ (220 : ℤ) := by gcongr
        _ = 2 ^ (221 : ℤ) := by norm_num
        _ < 2 ^ (1023 : ℤ) := hmax

/-- What `n` roundings do to a number at most, in relation to it. -/
def drift (n : ℕ) : ℚ := (1 + 2 ^ (-53 : ℤ)) ^ n - 1

/-- The float is the number, up to `n` roundings. -/
structure Rounded (n : ℕ) (q : ℚ) (x : Float) : Prop where
  full : Full x
  near : |toRat x - q| ≤ drift n * |q|

theorem drift_mono {m n : ℕ} (h : m ≤ n) : drift m ≤ drift n :=
  sub_le_sub_right (pow_le_pow_right₀ (by norm_num) h) 1

theorem Rounded.mono {m n : ℕ} {q : ℚ} {x : Float} (h : Rounded m q x) (hmn : m ≤ n) :
    Rounded n q x :=
  ⟨h.full, h.near.trans (mul_le_mul_of_nonneg_right (drift_mono hmn) (abs_nonneg q))⟩

theorem Full.rounded {x : Float} (h : Full x) : Rounded 0 (toRat x) x :=
  ⟨h, by simp [drift]⟩

theorem rounded_ofInt {v : ℤ} (h : v.natAbs ≤ 2 ^ 53) : Rounded 0 v (Float.ofInt v) :=
  (ofInt_full h).2 ▸ (ofInt_full h).1.rounded

theorem rounded_one : Rounded 0 1 1 := Int.cast_one (R := ℚ) ▸ rounded_ofInt (by decide)

theorem drift_add (m n : ℕ) : drift (m + n) = drift m + drift n + drift m * drift n := by
  unfold drift
  rw [pow_add]
  ring

theorem drift_nonneg (n : ℕ) : 0 ≤ drift n := by
  simpa [drift] using drift_mono (Nat.zero_le n)

theorem abs_mul_sub_mul_le {m n : ℕ} {p q a b : ℚ} (ha : |a - p| ≤ drift m * |p|)
    (hb : |b - q| ≤ drift n * |q|) : |a * b - p * q| ≤ drift (m + n) * |p * q| := by
  have hsplit : a * b - p * q = (a - p) * q + p * (b - q) + (a - p) * (b - q) := by ring
  calc |a * b - p * q| ≤ |a - p| * |q| + |p| * |b - q| + |a - p| * |b - q| := by
        rw [hsplit, ← abs_mul, ← abs_mul, ← abs_mul]
        exact abs_add_three _ _ _
    _ ≤ drift m * |p| * |q| + |p| * (drift n * |q|) + drift m * |p| * (drift n * |q|) := by
        have := drift_nonneg m
        gcongr
    _ = drift (m + n) * |p * q| := by
        rw [drift_add, abs_mul]
        ring

/-- A product of floats has one rounding more than both of them together. -/
theorem Rounded.mul {m n j : ℕ} {p q : ℚ} {x y : Float} (hx : Rounded m p x) (hy : Rounded n q y)
    (hs : Sized j (p * q)) (hj : j ≤ 20) (hmn : m + n ≤ 16) : Rounded (m + n + 1) (p * q) (x * y) := by
  have hnear := abs_mul_sub_mul_le hx.near hy.near
  have hdrift : drift (m + n) ≤ 1 / 2 := (drift_mono hmn).trans (by norm_num [drift])
  have hhalf : |toRat x * toRat y - p * q| ≤ 1 / 2 * |p * q| :=
    hnear.trans (mul_le_mul_of_nonneg_right hdrift (abs_nonneg _))
  obtain ⟨hfull, herror⟩ := hx.full.mul hy.full ((hs.mono hj).inRange hhalf)
  refine ⟨hfull, ?_⟩
  have hone : drift 1 = 2 ^ (-53 : ℤ) := by norm_num [drift]
  rw [← hone] at herror
  calc |toRat (x * y) - p * q|
      ≤ |toRat (x * y) - toRat x * toRat y| + |toRat x * toRat y - p * q| := abs_sub_le _ _ _
    _ ≤ drift 1 * (|p * q| + drift (m + n) * |p * q|) + drift (m + n) * |p * q| := by
        have hle := abs_sub_abs_le_abs_sub (toRat x * toRat y) (p * q)
        have := drift_nonneg 1
        gcongr
        refine herror.trans ?_
        gcongr
        linarith
    _ = drift (m + n + 1) * |p * q| := by
        rw [drift_add (m + n) 1]
        ring

end Floats
end UnitCalculator
