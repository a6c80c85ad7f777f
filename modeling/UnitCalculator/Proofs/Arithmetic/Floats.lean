import UnitCalculator.Display
import Mathlib

/-!
Floats as signs, mantissas and exponents. Zeros and signs change no value; and a whole float of
which every digit counts is the float of its integer.
-/

set_option autoImplicit false

namespace UnitCalculator

open Float.Model Float.Model.UnpackedFloat

/-! What the bits of a float stand for -/

namespace Floats

def Representable (u : UnpackedFloat) : Prop :=
  ∃ b : BitVec Format.binary64.numBits, u = UnpackedFloat.unpack Format.binary64 b

def withSign (s : Sign) : UnpackedFloat → UnpackedFloat
  | .notANumber => .notANumber
  | .infinity _ => .infinity s
  | .zero _ => .zero s
  | .finite _ m e h => .finite s m e h

theorem Representable.withSign {u : UnpackedFloat} (h : Representable u) (s : Sign) :
    Representable (withSign s u) := by
  obtain ⟨b, rfl⟩ := h
  refine ⟨packComponents _ s (unpackExponent b) (unpackMantissa b), ?_⟩
  unfold UnpackedFloat.unpack
  simp only [unpackExponent_packComponents, unpackMantissa_packComponents,
    unpackSign_packComponents, Sign.ofBitVec_toBitVec]
  split
  · split <;> rfl
  · split
    · split <;> rfl
    · rfl

theorem Representable.unpack_pack {u : UnpackedFloat} (h : Representable u) :
    (pack u).unpack = u := by
  obtain ⟨b, rfl⟩ := h
  have hp : (pack (UnpackedFloat.unpack Format.binary64 b)).unpack = UnpackedFloat.unpack _
      (UnpackedFloat.pack Format.binary64 (UnpackedFloat.unpack Format.binary64 b)) := rfl
  rw [hp, UnpackedFloat.pack_unpack b]
  split
  · next hn =>
    simp only [isNaNBits, decide_eq_true_eq] at hn
    rw [unpack_packedNaN, UnpackedFloat.unpack]
    simp [hn]
  · rfl

theorem representable (x : Float) : Representable x.toModel.unpack := ⟨_, rfl⟩

theorem abs_eq (u : UnpackedFloat) : u.abs = withSign .positive u := by
  cases u <;> rfl

@[simp] theorem unpack_abs (x : Float) :
    x.abs.toModel.unpack = withSign .positive x.toModel.unpack := by
  have h := ((representable x).withSign .positive).unpack_pack
  rw [← abs_eq] at h
  exact h.trans (abs_eq _)

@[simp] theorem unpack_neg (x : Float) : (-x).toModel.unpack = x.toModel.unpack.neg := by
  have hneg : ∃ s, x.toModel.unpack.neg = withSign s x.toModel.unpack := by
    cases x.toModel.unpack with
    | notANumber => exact ⟨.positive, rfl⟩
    | infinity s => exact ⟨-s, rfl⟩
    | zero s => exact ⟨-s, rfl⟩
    | finite s m e h => exact ⟨-s, rfl⟩
  obtain ⟨s, hs⟩ := hneg
  have h := ((representable x).withSign s).unpack_pack
  rw [← hs] at h
  exact h

theorem eq_of_unpack {x y : Float} (h : x.toModel.unpack = y.toModel.unpack) : x = y :=
  Float.toBits_inj.1 (UInt64.toBitVec_inj.1
    ((unpack_inj_of_valid x.toModel.valid y.toModel.valid).1 h))

theorem beq_iff {x y : Float} : (x == y) = true ↔ x.toModel.unpack ≠ .notANumber ∧
    y.toModel.unpack ≠ .notANumber ∧ (x.toModel.unpack = y.toModel.unpack ∨
      ∃ s t, x.toModel.unpack = .zero s ∧ y.toModel.unpack = .zero t) := by
  refine (beq_iff_ne_notANumber_and_eq x.toModel.unpack y.toModel.unpack).trans ?_
  refine and_congr_right fun _ => and_congr_right fun _ => ⟨?_, ?_⟩
  · rintro (h | ⟨h, h'⟩ | ⟨h, h'⟩)
    · exact .inl h
    · exact .inr ⟨_, _, h, h'⟩
    · exact .inr ⟨_, _, h, h'⟩
  · rintro (h | ⟨s, t, h, h'⟩)
    · exact .inl h
    · cases s with
      | positive =>
        cases t with
        | positive => exact .inl (h.trans h'.symm)
        | negative => exact .inr (.inl ⟨h, h'⟩)
      | negative =>
        cases t with
        | positive => exact .inr (.inr ⟨h, h'⟩)
        | negative => exact .inl (h.trans h'.symm)

variable {x y z : Float}

theorem beq_symm (h : (x == y) = true) : (y == x) = true := by
  obtain ⟨hx, hy, h⟩ := beq_iff.1 h
  refine beq_iff.2 ⟨hy, hx, h.imp Eq.symm ?_⟩
  rintro ⟨s, t, hs, ht⟩
  exact ⟨t, s, ht, hs⟩

theorem beq_trans (h : (x == y) = true) (h' : (y == z) = true) : (x == z) = true := by
  obtain ⟨hx, -, h⟩ := beq_iff.1 h
  obtain ⟨-, hz, h'⟩ := beq_iff.1 h'
  refine beq_iff.2 ⟨hx, hz, ?_⟩
  obtain h | ⟨s, t, hs, ht⟩ := h
  · rwa [h]
  · obtain h' | ⟨t', u, -, hu⟩ := h'
    · exact .inr ⟨s, t, hs, h' ▸ ht⟩
    · exact .inr ⟨s, u, hs, hu⟩

theorem isFinite_of_beq (h : (x == y) = true) (hy : y.isFinite = true) : x.isFinite = true := by
  show x.toModel.unpack.isFinite = true
  obtain ⟨-, -, h | ⟨s, t, hs, -⟩⟩ := beq_iff.1 h
  · rw [h]
    exact hy
  · rw [hs]
    rfl

/-! Signs and zeros -/

theorem unpack_of_isFinite (h : x.isFinite = true) : (∃ s, x.toModel.unpack = .zero s) ∨
    ∃ s m e hm, x.toModel.unpack = .finite s m e hm := by
  have hx : x.toModel.unpack.isFinite = true := h
  cases hu : x.toModel.unpack with
  | zero s => exact .inl ⟨s, rfl⟩
  | finite s m e hm => exact .inr ⟨s, m, e, hm, rfl⟩
  | _ =>
    rw [hu] at hx
    cases hx

theorem isNumber_of_isFinite (h : x.isFinite = true) : x.isNaN = false ∧ x.isInf = false := by
  change x.toModel.unpack.isNaN = false ∧ x.toModel.unpack.isInf = false
  obtain ⟨s, hu⟩ | ⟨s, m, e, hm, hu⟩ := unpack_of_isFinite h <;> rw [hu] <;> exact ⟨rfl, rfl⟩

theorem ne_notANumber (h : x.isFinite = true) : x.toModel.unpack ≠ .notANumber := by
  obtain ⟨s, hu⟩ | ⟨s, m, e, hm, hu⟩ := unpack_of_isFinite h <;> rw [hu] <;> exact nofun

theorem beq_self (h : x.isFinite = true) : (x == x) = true :=
  beq_iff.2 ⟨ne_notANumber h, ne_notANumber h, .inl rfl⟩

theorem unpack_zero : (0 : Float).toModel.unpack = .zero .positive := rfl

theorem packed_beq {u : UnpackedFloat} (hx : x.isFinite = true) (h : u = x.toModel.unpack ∨
    ∃ s t, u = .zero s ∧ x.toModel.unpack = .zero t) : (Float.ofModel (pack u) == x) = true := by
  have hxn := ne_notANumber hx
  refine beq_iff.2 ⟨?_, hxn, ?_⟩
  · obtain rfl | ⟨s, t, rfl, -⟩ := h
    · rwa [(representable x).unpack_pack]
    · cases s <;> exact nofun
  · obtain rfl | ⟨s, t, rfl, ht⟩ := h
    · exact .inl (representable x).unpack_pack
    · cases s <;> exact .inr ⟨_, t, rfl, ht⟩

theorem neg_beq (h : (x == y) = true) : ((-x) == (-y)) = true := by
  obtain ⟨hx, hy, h⟩ := beq_iff.1 h
  have hneg (u : UnpackedFloat) (hu : u ≠ .notANumber) : u.neg ≠ .notANumber := by
    cases u with
    | notANumber => exact absurd rfl hu
    | _ => exact nofun
  refine beq_iff.2 ⟨?_, ?_, ?_⟩
  · rw [unpack_neg]
    exact hneg _ hx
  · rw [unpack_neg]
    exact hneg _ hy
  · rw [unpack_neg, unpack_neg]
    obtain h | ⟨s, t, h, h'⟩ := h
    · exact .inl (by rw [h])
    · rw [h, h']
      exact .inr ⟨-s, -t, rfl, rfl⟩

theorem add_zero_beq (h : x.isFinite = true) : (x + 0 == x) = true := by
  refine packed_beq (u := UnpackedFloat.add _ x.toModel.unpack (.zero .positive)) h ?_
  obtain ⟨s, hu⟩ | ⟨s, m, e, hm, hu⟩ := unpack_of_isFinite h
  · rw [hu]
    cases s <;> exact .inr ⟨_, _, rfl, rfl⟩
  · rw [hu]
    exact .inl rfl

theorem sub_zero_beq (h : x.isFinite = true) : (x - 0 == x) = true := by
  refine packed_beq (u := UnpackedFloat.sub _ x.toModel.unpack (.zero .positive)) h ?_
  obtain ⟨s, hu⟩ | ⟨s, m, e, hm, hu⟩ := unpack_of_isFinite h
  · rw [hu]
    cases s <;> exact .inr ⟨_, _, rfl, rfl⟩
  · rw [hu]
    exact .inl rfl

theorem zero_add_beq (h : x.isFinite = true) : (0 + x == x) = true := by
  refine packed_beq (u := UnpackedFloat.add _ (.zero .positive) x.toModel.unpack) h ?_
  obtain ⟨s, hu⟩ | ⟨s, m, e, hm, hu⟩ := unpack_of_isFinite h
  · rw [hu]
    cases s <;> exact .inr ⟨_, _, rfl, rfl⟩
  · rw [hu]
    exact .inl rfl

theorem isFinite_neg (h : x.isFinite = true) : (-x).isFinite = true := by
  show (-x).toModel.unpack.isFinite = true
  rw [unpack_neg]
  obtain ⟨s, hu⟩ | ⟨s, m, e, hm, hu⟩ := unpack_of_isFinite h <;> rw [hu] <;> rfl

theorem zero_sub_beq (h : x.isFinite = true) : (0 - x == -x) = true := by
  refine packed_beq (u := UnpackedFloat.sub _ (.zero .positive) x.toModel.unpack)
    (isFinite_neg h) ?_
  obtain ⟨s, hu⟩ | ⟨s, m, e, hm, hu⟩ := unpack_of_isFinite h
  · rw [unpack_neg, hu]
    cases s <;> exact .inr ⟨_, _, rfl, rfl⟩
  · rw [unpack_neg, hu]
    exact .inl rfl

/-! The fields of the bits -/

def bits (x : Float) : BitVec Format.binary64.numBits := x.toBits.toBitVec

def signOf (x : Float) : Sign := if signBit x then .negative else .positive

theorem toNat_bits (x : Float) : (bits x).toNat = x.toBits.toNat := rfl

theorem toNat_unpackMantissa (x : Float) :
    (unpackMantissa (bits x)).toNat = x.toBits.toNat % 2 ^ 52 := by
  rw [unpackMantissa_def, BitVec.extractLsb'_toNat, toNat_bits, Nat.shiftRight_zero]

theorem toNat_unpackExponent (x : Float) :
    (unpackExponent (bits x)).toNat = x.toBits.toNat / 2 ^ 52 % 2 ^ 11 := by
  rw [unpackExponent_def, BitVec.extractLsb'_toNat, toNat_bits, Nat.shiftRight_eq_div_pow]

theorem ofBitVec_unpackSign (x : Float) : Sign.ofBitVec (unpackSign (bits x)) = signOf x := by
  have hlt : x.toBits.toNat < 2 ^ 64 := x.toBits.toBitVec.isLt
  have hsign : (unpackSign (bits x)).toNat = x.toBits.toNat / 2 ^ 63 := by
    rw [unpackSign_def, BitVec.extractLsb'_toNat, toNat_bits, Nat.shiftRight_eq_div_pow]
    show x.toBits.toNat / 2 ^ 63 % 2 ^ 1 = x.toBits.toNat / 2 ^ 63
    omega
  have hpow : Nat.pow 2 63 = 2 ^ 63 := rfl
  unfold Sign.ofBitVec signOf signBit
  rw [hpow]
  by_cases h : 2 ^ 63 ≤ x.toBits.toNat
  · have hne : unpackSign (bits x) ≠ 0#1 := by
      intro h₀
      rw [h₀] at hsign
      simp at hsign
      omega
    rw [if_neg hne, decide_eq_true h]
    rfl
  · have heq : unpackSign (bits x) = 0#1 := by
      refine BitVec.eq_of_toNat_eq ?_
      rw [hsign]
      simp
      omega
    rw [if_pos heq, decide_eq_false h]
    rfl

theorem toNat_one_append {n : Nat} (v : BitVec n) : (1#1 ++ v).toNat = 2 ^ n + v.toNat := by
  rw [BitVec.toNat_append, ← Nat.shiftLeft_add_eq_or_of_lt v.isLt]
  simp [Nat.shiftLeft_eq]

/-- A finite float has the mantissa and the exponent that are read off its bits. -/
theorem unpack_eq (h : x.isFinite = true) :
    ((Binary.ofFloat x).mantissa = 0 ∧ x.toModel.unpack = .zero (signOf x)) ∨
      ∃ hm, x.toModel.unpack =
        .finite (signOf x) (Binary.ofFloat x).mantissa (Binary.ofFloat x).exponent hm := by
  have hx : x.toModel.unpack = UnpackedFloat.unpack Format.binary64 (bits x) := rfl
  have hpow : Nat.pow 2 52 = 2 ^ 52 ∧ Nat.pow 2 11 = 2 ^ 11 := ⟨rfl, rfl⟩
  have hm := toNat_unpackMantissa x
  have he := toNat_unpackExponent x
  have hu : (UnpackedFloat.unpack Format.binary64 (bits x)).isFinite = true := h
  rw [hx]
  unfold Binary.ofFloat
  simp only [hpow, ← hm, ← he]
  unfold UnpackedFloat.unpack at hu ⊢
  simp only [ofBitVec_unpackSign] at hu ⊢
  split at hu
  · split at hu <;> cases hu
  · next hinf =>
    rw [if_neg hinf]
    have hbias : ((Format.binary64.exponentBias : Nat) : Int) = 1023 := rfl
    have hbits : ((Format.binary64.mantissaBitsWithoutImplicit : Nat) : Int) = 52 := rfl
    by_cases h₀ : unpackExponent (bits x) = 0#_
    · have h₀' : (unpackExponent (bits x)).toNat = 0 := by rw [h₀]; rfl
      simp only [if_pos h₀, if_pos h₀']
      by_cases hm₀ : unpackMantissa (bits x) = 0#_
      · exact .inl ⟨by rw [hm₀]; rfl, dif_pos hm₀⟩
      · have hpos : 0 < (unpackMantissa (bits x)).toNat :=
          Nat.pos_of_ne_zero fun h => hm₀ (BitVec.eq_of_toNat_eq h)
        refine .inr ⟨hpos, ?_⟩
        rw [dif_neg hm₀]
        congr 1
        rw [h₀']
        rfl
    · have h₀' : (unpackExponent (bits x)).toNat ≠ 0 := fun h => h₀ (BitVec.eq_of_toNat_eq h)
      simp only [if_neg h₀, if_neg h₀']
      refine .inr ⟨by omega, ?_⟩
      congr 1
      exact toNat_one_append _

/-- Mantissas have 53 bits, all of them unless the exponent is the least. -/
theorem ofFloat_bounds (x : Float) : (Binary.ofFloat x).mantissa < 2 ^ 53 ∧
    (2 ^ 52 ≤ (Binary.ofFloat x).mantissa ∨ (Binary.ofFloat x).exponent = -1074) := by
  have hpow : Nat.pow 2 52 = 2 ^ 52 := rfl
  have hlt : x.toBits.toNat % 2 ^ 52 < 2 ^ 52 := Nat.mod_lt _ (by decide)
  unfold Binary.ofFloat
  simp only [hpow]
  split
  · exact ⟨by simp only; omega, .inr rfl⟩
  · exact ⟨by simp only; omega, .inl (by simp only; omega)⟩

/-! Magnitudes -/

theorem signBit_of_signOf {s : Sign} (h : signOf x = s) : signBit x = (s == .negative) := by
  unfold signOf at h
  split at h
  · next hs =>
    subst h
    rw [hs]
    rfl
  · next hs =>
    subst h
    rw [Bool.eq_false_iff.2 hs]
    rfl

theorem isFinite_abs (h : x.isFinite = true) : x.abs.isFinite = true := by
  show x.abs.toModel.unpack.isFinite = true
  rw [unpack_abs]
  obtain ⟨s, hu⟩ | ⟨s, m, e, hm, hu⟩ := unpack_of_isFinite h <;> rw [hu] <;> rfl

theorem ofFloat_abs (h : x.isFinite = true) :
    Binary.ofFloat x.abs = Binary.ofFloat x ∧ signBit x.abs = false := by
  have hzero {y : Float} (hy : (Binary.ofFloat y).mantissa = 0) :
      Binary.ofFloat y = ⟨0, -1074⟩ := by
    have he := (ofFloat_bounds y).2.resolve_left (by omega)
    cases hb : Binary.ofFloat y with
    | mk m e => simp_all
  have habs := unpack_abs x
  obtain ⟨hm, hu⟩ | ⟨hm, hu⟩ := unpack_eq h
  · obtain ⟨hm', hu'⟩ | ⟨hm', hu'⟩ := unpack_eq (isFinite_abs h)
    · rw [hu', hu] at habs
      injection habs with hs
      exact ⟨(hzero hm').trans (hzero hm).symm, signBit_of_signOf hs⟩
    · rw [hu', hu] at habs
      cases habs
  · obtain ⟨hm', hu'⟩ | ⟨hm', hu'⟩ := unpack_eq (isFinite_abs h)
    · rw [hu', hu] at habs
      cases habs
    · rw [hu', hu] at habs
      injection habs with hs hm hexp
      refine ⟨?_, signBit_of_signOf hs⟩
      cases hb : Binary.ofFloat x.abs with
      | mk m e => simp_all

theorem withSign_signOf (h : x.isFinite = true) :
    withSign (signOf x) x.toModel.unpack = x.toModel.unpack := by
  obtain ⟨-, hu⟩ | ⟨hm, hu⟩ := unpack_eq h <;> rw [hu] <;> rfl

theorem abs_of_positive (h : x.isFinite = true) (hs : signBit x = false) : x.abs = x := by
  refine eq_of_unpack ?_
  have hsign : signOf x = .positive := by simp [signOf, hs]
  rw [unpack_abs, ← hsign, withSign_signOf h]

theorem neg_abs_of_negative (h : x.isFinite = true) (hs : signBit x = true) : -x.abs = x := by
  refine eq_of_unpack ?_
  have hsign : signOf x = .negative := by simp [signOf, hs]
  have hneg (u : UnpackedFloat) : (withSign .positive u).neg = withSign .negative u := by
    cases u <;> rfl
  rw [unpack_neg, unpack_abs, hneg, ← hsign, withSign_signOf h]

/-! Whole floats -/

theorem shift_exact (m k : Nat) :
    (⟨m * 2 ^ k, false, false⟩ : ExtendedMantissa) >>> k = ⟨m, false, false⟩ := by
  show Nat.repeat ExtendedMantissa.shiftRightOne k ⟨m * 2 ^ k, false, false⟩ = _
  induction k generalizing m with
  | zero => simp [Nat.repeat]
  | succ k ih =>
    rw [Nat.repeat, Nat.pow_succ', ← Nat.mul_assoc, ih]
    simp [ExtendedMantissa.shiftRightOne]

/-- The last of 53 bits decides the exponent, unless it is the least one. -/
theorem targetExponent_eq (m : Nat) (e : Int) :
    Format.binary64.targetExponent (totalExponent m e) = max (m.log2 + e - 52) (-1074) := by
  have hbits : ((Format.binary64.mantissaBits : Nat) : Int) = 53 := rfl
  have hmin : Format.binary64.minExponent = -1074 := rfl
  rw [Format.targetExponent, totalExponent, hbits, hmin]
  omega

theorem log2_mul_two_pow {m : Nat} (hl : 2 ^ 52 ≤ m) (hg : m < 2 ^ 53) (k : Nat) :
    (m * 2 ^ k).log2 = 52 + k := by
  have hpos := Nat.two_pow_pos k
  rw [Nat.log2_eq_iff (Nat.mul_ne_zero (by omega) (by omega)), Nat.pow_add,
    show 52 + k + 1 = 53 + k by omega, Nat.pow_add]
  exact ⟨Nat.mul_le_mul_right _ hl, Nat.mul_lt_mul_of_pos_right hg hpos⟩

theorem shiftToTargetExponent_exact {m : Nat} {e : Int} (hl : 2 ^ 52 ≤ m) (hg : m < 2 ^ 53)
    (he : -1074 ≤ e) (k : Nat) :
    shiftToTargetExponent Format.binary64 (m * 2 ^ k) (e - k) .exact = (⟨m, false, false⟩, e) := by
  have htarget : Format.binary64.targetExponent (totalExponent (m * 2 ^ k) (e - k)) = e := by
    rw [targetExponent_eq, log2_mul_two_pow hl hg]
    omega
  have hk : (e - (e - k)).toNat = k := by omega
  unfold shiftToTargetExponent shiftToExponent
  simp only [htarget, hk, ExtendedMantissa.ofMantissaAndAccuracy, shift_exact]
  congr 1
  omega

theorem round_exact (s : Sign) {m : Nat} {e : Int} (hl : 2 ^ 52 ≤ m) (hg : m < 2 ^ 53)
    (he : -1074 ≤ e) (k : Nat) : roundWithAccuracy Format.binary64 s (m * 2 ^ k) (e - k) .exact =
      .finite s m e (by omega) := by
  have hfirst := shiftToTargetExponent_exact hl hg he 0
  simp only [Nat.pow_zero, Nat.mul_one, Int.natCast_zero, Int.sub_zero] at hfirst
  have hm : (⟨m, false, false⟩ : ExtendedMantissa).roundedMantissa = m := rfl
  unfold roundWithAccuracy
  simp only [shiftToTargetExponent_exact hl hg he k, hm, hfirst]
  rw [dif_neg (by omega)]

section Shifted

variable {n k : Nat}

theorem shift_bounds (hl : 2 ^ 52 ≤ n * 2 ^ k) (hg : n * 2 ^ k < 2 ^ 53) :
    0 < n ∧ n < 2 ^ 53 ∧ k ≤ 52 ∧ n.log2 = 52 - k := by
  have hpos := Nat.two_pow_pos k
  have hn : 0 < n := Nat.pos_of_ne_zero fun h => by simp [h] at hl
  have hk : k ≤ 52 := by
    refine Nat.le_of_not_lt fun hk => ?_
    have hle : 2 ^ 53 ≤ 2 ^ k := Nat.pow_le_pow_right (by decide) hk
    have := Nat.le_mul_of_pos_left (2 ^ k) hn
    omega
  have h52 : 2 ^ 52 = 2 ^ (52 - k) * 2 ^ k := by
    rw [← Nat.pow_add]
    congr 1
    omega
  have h53 : 2 ^ 53 = 2 ^ (52 - k + 1) * 2 ^ k := by
    rw [← Nat.pow_add]
    congr 1
    omega
  refine ⟨hn, Nat.lt_of_le_of_lt (Nat.le_mul_of_pos_right n hpos) hg, hk, ?_⟩
  rw [h52] at hl
  rw [h53] at hg
  rw [Nat.log2_eq_iff (by omega)]
  exact ⟨Nat.le_of_mul_le_mul_right hl hpos, Nat.lt_of_mul_lt_mul_right hg⟩

theorem unpacked_ofInt (hl : 2 ^ 52 ≤ n * 2 ^ k) (hg : n * 2 ^ k < 2 ^ 53) :
    UnpackedFloat.ofInt Format.binary64 (n : Int) =
      .finite .positive (n * 2 ^ k) (-k) (by omega) := by
  obtain ⟨hn, -, hk, hlog⟩ := shift_bounds hl hg
  have hcompare : compare ((n : Nat) : Int) 0 = .gt := by
    rw [Int.compare_eq_gt]
    omega
  have htarget : Format.binary64.targetExponent (totalExponent n 0) = -k := by
    rw [targetExponent_eq, hlog]
    omega
  have hshift : (0 - -(k : Int)).toNat = k := by omega
  have hexact := round_exact .positive hl hg (e := -k) (by omega) 0
  simp only [Nat.pow_zero, Nat.mul_one, Int.natCast_zero, Int.sub_zero] at hexact
  rw [UnpackedFloat.ofInt, UnpackedFloat.normalize, hcompare]
  simp only [Int.toNat_natCast, UnpackedFloat.round, htarget, decreaseExponent]
  rw [hshift, Nat.shiftLeft_eq, Int.zero_sub, hexact]

theorem unpack_one : (1 : Float).toModel.unpack = .finite .positive (2 ^ 52) (-52) (by decide) :=
  rfl

/-- A natural number of 53 bits is multiplied by one on its way to a float. -/
theorem toModel_ofNat (hn : n < 2 ^ 53) : (Float.ofNat n).toModel =
    pack (UnpackedFloat.mul Format.binary64
      (pack (UnpackedFloat.ofInt Format.binary64 (n : Int))).unpack (1 : Float).toModel.unpack) := by
  have hsize : n < UInt64.size := by
    simp only [UInt64.size]
    omega
  have htoNat : n.toUInt64.toNat = n := UInt64.toNat_ofNat_of_lt' hsize
  have hproduct : (Float.ofNat n).toModel = pack (UnpackedFloat.mul Format.binary64
      (pack (UnpackedFloat.ofInt Format.binary64 (n.toUInt64.toNat : Int))).unpack
      (1 : Float).toModel.unpack) := by
    show (Float.ofScientific n false 0).toModel = _
    unfold Float.ofScientific
    rw [dif_pos ⟨hn, by decide⟩]
    rfl
  rw [hproduct, htoNat]

theorem ofNat_eq (hl : 2 ^ 52 ≤ n * 2 ^ k) (hg : n * 2 ^ k < 2 ^ 53)
    (hx : x.toModel.unpack = .finite .positive (n * 2 ^ k) (-k) (by omega)) :
    Float.ofNat n = x := by
  obtain ⟨-, hn, hk, -⟩ := shift_bounds hl hg
  have hround := (unpacked_ofInt hl hg).trans hx.symm
  have hproduct : UnpackedFloat.mul Format.binary64 x.toModel.unpack (1 : Float).toModel.unpack =
      x.toModel.unpack := by
    have hexact := round_exact .positive hl hg (e := -k) (by omega) 52
    rw [hx, unpack_one]
    exact hexact
  refine eq_of_unpack ?_
  rw [toModel_ofNat hn, hround, (representable x).unpack_pack, hproduct,
    (representable x).unpack_pack]

end Shifted

theorem unpack_exactLimit :
    Display.exactLimit.toModel.unpack = .finite .positive (2 ^ 52) 1 (by decide) := rfl

/-- Below the limit of exact floats nothing is to the left of the mantissa. -/
theorem exponent_nonpos (h : x.isFinite = true) (hl : x.abs < Display.exactLimit) :
    (Binary.ofFloat x).exponent ≤ 0 := by
  have hlt : x.abs.toModel.unpack.lt Display.exactLimit.toModel.unpack = true :=
    of_decide_eq_true hl
  rw [unpack_abs, unpack_exactLimit] at hlt
  obtain ⟨hm, hu⟩ | ⟨hm, hu⟩ := unpack_eq h
  · have := (ofFloat_bounds x).2.resolve_left (by omega)
    omega
  · rw [hu] at hlt
    refine Int.not_lt.1 fun he => ?_
    have hm' := (ofFloat_bounds x).2.resolve_right (by omega)
    generalize (Binary.ofFloat x).mantissa = m, (Binary.ofFloat x).exponent = e at *
    have hcompare : some ((compare e 1).then (compare m (2 ^ 52))) = some Ordering.lt :=
      eq_of_beq hlt
    obtain h₁ | h₁ : e = 1 ∨ 1 < e := by omega
    · rw [h₁, Int.compare_eq_eq.2 rfl] at hcompare
      have hlt := Nat.compare_eq_lt.1 (Option.some.inj hcompare)
      omega
    · rw [Int.compare_eq_gt.2 h₁] at hcompare
      cases hcompare

theorem mantissa_eq (hw : isWhole x = true) (hl : x.abs < Display.exactLimit) :
    ∃ k : Nat, (Binary.ofFloat x).exponent = -k ∧
      (Binary.ofFloat x).mantissa = (Binary.ofFloat x).floor * 2 ^ k := by
  obtain ⟨hf, hw⟩ : x.isFinite = true ∧ (Binary.ofFloat x).isWhole = true := by
    simpa [isWhole] using hw
  have he := exponent_nonpos hf hl
  unfold Binary.isWhole at hw
  unfold Binary.floor
  generalize (Binary.ofFloat x).mantissa = m, (Binary.ofFloat x).exponent = e at *
  cases e with
  | ofNat e =>
    obtain rfl : e = 0 := by simpa using he
    exact ⟨0, rfl, by simp⟩
  | negSucc e =>
    refine ⟨e + 1, rfl, ?_⟩
    have hmod : m % 2 ^ (e + 1) = 0 := of_decide_eq_true hw
    exact (Nat.div_mul_cancel (Nat.dvd_of_mod_eq_zero hmod)).symm

theorem ofInt_neg {n : Nat} (h : 0 < n) : Float.ofInt (-(n : Int)) = -Float.ofNat n := by
  obtain ⟨m, rfl⟩ := Nat.exists_eq_succ_of_ne_zero (Nat.ne_of_gt h)
  rfl

/-- A whole float of which every digit counts is the float of its integer. -/
theorem ofInt_truncate (hw : isWhole x = true) (hl : x.abs < Display.exactLimit) :
    (truncate x).natAbs < 2 ^ 53 ∧ (Float.ofInt (truncate x) == x) = true := by
  have hf : x.isFinite = true := (Bool.and_eq_true _ _ ▸ hw).1
  obtain ⟨k, hexp, hm⟩ := mantissa_eq hw hl
  obtain ⟨hg, hl⟩ := ofFloat_bounds x
  have hnat : (truncate x).natAbs = (Binary.ofFloat x).floor := by
    unfold truncate
    split <;> simp
  have hle : (Binary.ofFloat x).floor ≤ (Binary.ofFloat x).mantissa := by
    rw [hm]
    exact Nat.le_mul_of_pos_right _ (Nat.two_pow_pos k)
  refine ⟨by omega, ?_⟩
  obtain ⟨h₀, hu⟩ | ⟨hpos, hu⟩ := unpack_eq hf
  · have hzero : truncate x = 0 := by omega
    rw [hzero]
    exact beq_iff.2 ⟨nofun, by rw [hu]; exact nofun, .inr ⟨_, _, unpack_zero, hu⟩⟩
  · have hfloor : 0 < (Binary.ofFloat x).floor := by
      refine Nat.pos_of_ne_zero fun h => ?_
      rw [hm, h, Nat.zero_mul] at hpos
      exact Nat.lt_irrefl 0 hpos
    have hbig : 2 ^ 52 ≤ (Binary.ofFloat x).mantissa := by
      refine hl.resolve_right fun he => ?_
      have hk : k = 1074 := by omega
      have hpow : 2 ^ 53 ≤ 2 ^ k := Nat.pow_le_pow_right (by decide) (by omega)
      have hmul := Nat.le_mul_of_pos_left (2 ^ k) hfloor
      omega
    have habs : Float.ofNat (Binary.ofFloat x).floor = x.abs := by
      rw [hm] at hbig hg
      refine ofNat_eq hbig hg ?_
      rw [unpack_abs, hu]
      simp only [hexp, hm, withSign]
    have hx : Float.ofInt (truncate x) = x := by
      unfold truncate
      split
      · next hs => rw [ofInt_neg hfloor, habs, neg_abs_of_negative hf hs]
      · next hs => exact habs.trans (abs_of_positive hf (by simpa using hs))
    rw [hx]
    exact beq_self hf

end Floats

end UnitCalculator
