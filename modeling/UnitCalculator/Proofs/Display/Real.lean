import UnitCalculator.Proofs.Arithmetic.Floats
import UnitCalculator.Proofs.Display.Integer

/-!
Floats as they are shown. The digits of a float are a literal of a float, positional or not; that
they lead back to the same float is the one thing that is taken from their being the shortest that
do.
-/

set_option autoImplicit false

namespace UnitCalculator

open Text Decimal

variable {k : CharClasses} {x : Float}

/-- The digits of the float are those of a decimal that it is nearest to. -/
def ReadsBack (x : Float) : Prop :=
  ∃ d, Decimal.read? (Layout.standard.magnitude x) = some d ∧ d.toFloat = x.abs

/-! The shape of digits -/

namespace Layout

theorem digits_toDigits (n : Nat) : Digits (Nat.toDigits 10 n) :=
  fun _ hc => Nat.isDigit_of_mem_toDigits (by decide) (by decide) hc

theorem digits_zeros (n : Nat) : Digits (List.replicate n '0') := by
  intro c hc
  rw [(List.mem_replicate.1 hc).2]
  rfl

theorem digits_append {as bs : List Char} (ha : Digits as) (hb : Digits bs) : Digits (as ++ bs) :=
  List.forall_mem_append.2 ⟨ha, hb⟩

def IsExponentText (t : List Char) : Prop :=
  ∃ s ds, t = 'e' :: s :: ds ∧ isSign s = true ∧ ds ≠ [] ∧ Digits ds

def IsFractionText (t : List Char) : Prop :=
  ∃ ds z, t = '.' :: (ds ++ z) ∧ Digits ds ∧ (z = [] ∨ IsExponentText z)

def IsFloatText (x : List Char) : Prop :=
  ∃ ds t, x = ds ++ t ∧ ds ≠ [] ∧ Digits ds ∧ (IsExponentText t ∨ IsFractionText t)

theorem isFloatText_of_point {ds fs : List Char} (hne : ds ≠ []) (hd : Digits ds)
    (hf : Digits fs) : IsFloatText (ds ++ '.' :: fs) :=
  ⟨ds, _, rfl, hne, hd, .inr ⟨fs, [], by simp, hf, .inl rfl⟩⟩

variable {ds : List Char}

theorem isFloatText_positional (hne : ds ≠ []) (hd : Digits ds) (e : Int) :
    IsFloatText (standard.positional ds e) := by
  unfold positional
  split
  · next n =>
    exact isFloatText_of_point (List.cons_ne_nil '0' []) (digits_zeros 1)
      (digits_append (digits_zeros n) hd)
  · next n =>
    have htake : Digits (ds.take (n + 1)) := fun c hc => hd c (List.mem_of_mem_take hc)
    have hdrop : Digits (ds.drop (n + 1)) := fun c hc => hd c (List.mem_of_mem_drop hc)
    have hwhole := digits_append htake (digits_zeros (n + 1 - ds.length))
    have hne' : ds.take (n + 1) ++ List.replicate (n + 1 - ds.length) '0' ≠ [] := by
      simp [hne]
    simp only
    split
    · exact isFloatText_of_point hne' hwhole (digits_zeros 1)
    · exact isFloatText_of_point hne' hwhole hdrop

theorem isFloatText_scientific (hne : ds ≠ []) (hd : Digits ds) (e : Int) :
    IsFloatText (standard.scientific ds e) := by
  have hexponent : IsExponentText ('e' :: (if e < 0 then '-' else '+') ::
      padded standard.exponentDigits (Nat.toDigits 10 e.natAbs)) := by
    refine ⟨_, _, rfl, by split <;> rfl, ?_, digits_append (digits_zeros _) (digits_toDigits _)⟩
    simp [padded]
  unfold scientific
  simp only
  split
  · exact ⟨ds, _, rfl, hne, hd, .inl hexponent⟩
  · obtain ⟨c, r, rfl⟩ := List.exists_cons_of_ne_nil hne
    obtain ⟨hc, hr⟩ := List.forall_mem_cons.1 hd
    exact ⟨[c], _, rfl, List.cons_ne_nil _ _, by simpa [Digits] using hc,
      .inr ⟨r, _, by simp, hr, .inr hexponent⟩⟩

theorem isFloatText_magnitude (h : x.isFinite = true) : IsFloatText (standard.magnitude x) := by
  have hdigits (n : Nat) := digits_toDigits n
  unfold magnitude
  simp only [Floats.isNumber_of_isFinite h, Bool.false_eq_true, if_false]
  split
  · exact isFloatText_of_point (List.cons_ne_nil '0' []) (digits_zeros 1) (digits_zeros 1)
  · split
    · exact isFloatText_positional Nat.toDigits_ne_nil (hdigits _) _
    · exact isFloatText_scientific Nat.toDigits_ne_nil (hdigits _) _

/-! Digits as a literal -/

theorem digitOrLowLine_of_digits (hd : Digits ds) : ∀ c ∈ ds, isDigitOrLowLine c = true := by
  intro c hc
  have hc : isAsciiDigit c = true := hd c hc
  simp [isDigitOrLowLine, hc]

theorem IsExponentText.mem {t : List Char} (h : IsExponentText t) : t ∈ Group.exponent := by
  obtain ⟨s, ds, rfl, hs, -, hd⟩ := h
  exact Group.mem_exponent.2
    ⟨'e', _, rfl, rfl, .inr ⟨s, ds, rfl, hs, digitOrLowLine_of_digits hd⟩⟩

theorem IsFloatText.mem {t : List Char} (h : IsFloatText t) : t ∈ Group.language k .float := by
  obtain ⟨ds, z, rfl, hne, hd, hz⟩ := h
  obtain ⟨c, ds, rfl⟩ := List.exists_cons_of_ne_nil hne
  obtain ⟨hc, hds⟩ := List.forall_mem_cons.1 hd
  refine Group.mem_float.2 ⟨c, ds, z, rfl, hc, digitOrLowLine_of_digits hds, ?_⟩
  obtain hz | ⟨fs, w, rfl, hf, hw⟩ := hz
  · exact .inl hz.mem
  · exact .inr ⟨fs, w, rfl, digitOrLowLine_of_digits hf, hw.imp id IsExponentText.mem⟩

/-- The exponent of a float, if it has one, is behind all the rest. -/
theorem IsFloatText.split {t : List Char} (h : IsFloatText t) : ∃ a z, t = a ++ z ∧
    (∀ c ∈ a, c.isDigit = true ∨ c = '.') ∧ (z = [] ∨ IsExponentText z) := by
  obtain ⟨ds, z, rfl, -, hd, hz⟩ := h
  obtain hz | ⟨fs, w, rfl, hf, hw⟩ := hz
  · exact ⟨ds, z, rfl, fun c hc => .inl (hd c hc), .inr hz⟩
  · refine ⟨ds ++ '.' :: fs, w, by simp, ?_, hw⟩
    refine List.forall_mem_append.2 ⟨fun c hc => .inl (hd c hc), ?_⟩
    exact List.forall_mem_cons.2 ⟨.inr rfl, fun c hc => .inl (hf c hc)⟩

theorem not_exponentMark_of_point {c : Char} (h : c.isDigit = true ∨ c = '.') :
    isExponentMark c = false := by
  obtain h | rfl := h
  · exact Literal.not_mark_of_digit h
  · rfl

/-- A sign may follow: the last character is a digit or a point. -/
theorem IsFloatText.not_exponentMark {t w : List Char} {m : Char} (h : IsFloatText t)
    (he : t = w ++ [m]) : isExponentMark m = false := by
  obtain ⟨a, z, rfl, ha, rfl | ⟨s, ds, rfl, -, hne, hd⟩⟩ := h.split
  · refine not_exponentMark_of_point (ha m ?_)
    rw [List.append_nil] at he
    simp [he]
  · obtain ⟨ds, d, rfl⟩ := (List.eq_nil_or_concat ds).resolve_left hne
    have hlast : (a ++ 'e' :: s :: ds) ++ [d] = w ++ [m] := by simpa using he
    obtain ⟨-, rfl⟩ := List.append_inj' hlast rfl |>.imp_right List.singleton_inj.1
    exact Literal.not_mark_of_digit (hd d (by simp))

theorem IsFloatText.lowLine_not_mem {t : List Char} (h : IsFloatText t) : '_' ∉ t := by
  obtain ⟨a, z, rfl, ha, hz⟩ := h.split
  refine fun hm => (List.mem_append.1 hm).elim (fun hm => ?_) fun hm => ?_
  · obtain h | h := ha _ hm <;> cases h
  · obtain rfl | ⟨s, ds, rfl, hs, -, hd⟩ := hz
    · cases hm
    · obtain h | rfl | hm : '_' = 'e' ∨ '_' = s ∨ '_' ∈ ds := by simpa using hm
      · cases h
      · cases hs
      · cases hd _ hm

theorem IsFloatText.filter_eq {t : List Char} (h : IsFloatText t) : t.filter (· ≠ '_') = t := by
  refine List.filter_eq_self.2 fun c hc => decide_eq_true ?_
  rintro rfl
  exact h.lowLine_not_mem hc

theorem IsFloatText.float_ne {t : List Char} (h : IsFloatText t) :
    Literal.float t ≠ .error ⟨.missingExponent, t⟩ := by
  have hpart : (Literal.exponentPart t).any (fun e => (e.dropWhile isSign).isEmpty) = false := by
    obtain ⟨a, z, rfl, ha, rfl | ⟨s, ds, rfl, hs, hne, hd⟩⟩ := h.split
    · rw [List.append_nil, Literal.exponentPart_eq_none fun c hc =>
        not_exponentMark_of_point (ha c hc)]
      rfl
    · rw [Literal.exponentPart_append (fun c hc => not_exponentMark_of_point (ha c hc)) rfl]
      obtain ⟨d, ds, rfl⟩ := List.exists_cons_of_ne_nil hne
      have hsign : isSign d = false := by
        have hd := hd d List.mem_cons_self
        refine Bool.eq_false_iff.2 fun hs => ?_
        simp only [isSign, Bool.or_eq_true, decide_eq_true_eq] at hs
        obtain rfl | rfl := hs <;> cases hd
      simp [hs, hsign]
  unfold Literal.float
  simp only [h.filter_eq, hpart, Bool.false_eq_true, if_false]
  split
  · intro he
    cases he
  · intro he
    cases he

end Layout

theorem isLiteral_magnitude (h : x.isFinite = true) (hr : ReadsBack x) :
    IsLiteral k (Layout.standard.magnitude x) (.ok (.float x.abs)) := by
  have ht := Layout.isFloatText_magnitude h
  refine ⟨.float, rfl, ht.mem, ?_⟩
  obtain ⟨d, hd, hx⟩ := hr
  obtain he | ⟨d', hd', he⟩ := Literal.float_of_mem (ht.mem (k := k))
  · exact absurd he ht.float_ne
  · rw [ht.filter_eq, hd] at hd'
    cases hd'
    rw [hx] at he
    simp only [Lexeme.token?, he]

end UnitCalculator
