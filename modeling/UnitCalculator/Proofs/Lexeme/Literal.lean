import UnitCalculator.Proofs.Grammar.Shape
import Mathlib.Data.List.TakeWhile

/-!
Literals of floats. What is cut as a float is a decimal once its low lines are taken out, unless
the digits of its exponent are missing; so every such literal is read, or refused for that reason.
-/

set_option autoImplicit false

namespace UnitCalculator

/-! Decimals as text -/

namespace Decimal

def Digits (ds : List Char) : Prop := ∀ c ∈ ds, c.isDigit = true

/-- An exponent behind its mark: digits, with a sign in front of them or not. -/
def IsExponent (t : List Char) : Prop :=
  ∃ ds, ds ≠ [] ∧ Digits ds ∧ (t = ds ∨ ∃ s, isSign s = true ∧ t = s :: ds)

def IsScale (t : List Char) : Prop :=
  t = [] ∨ ∃ m r, t = m :: r ∧ isExponentMark m = true ∧ IsExponent r

theorem of_isExponentMark {m : Char} (h : isExponentMark m = true) :
    m.isDigit = false ∧ m ≠ '.' ∧ (m = 'e' ∨ m = 'E') := by
  simp only [isExponentMark, Bool.or_eq_true, decide_eq_true_eq] at h
  obtain rfl | rfl := h
  · exact ⟨rfl, by decide, .inl rfl⟩
  · exact ⟨rfl, by decide, .inr rfl⟩

theorem exists_readExponent? {t : List Char} (h : IsExponent t) :
    ∃ e, readExponent? t = some e := by
  obtain ⟨ds, hne, hd, ht⟩ := h
  have hall : ds.all Char.isDigit = true := List.all_eq_true.2 hd
  obtain rfl | ⟨s, hs, rfl⟩ := ht
  · cases t with
    | nil => exact absurd rfl hne
    | cons c r =>
      have hc : c.isDigit = true := hd c List.mem_cons_self
      have hm : c ≠ '-' ∧ c ≠ '+' := by
        constructor <;> (rintro rfl; cases hc)
      refine ⟨Nat.ofDigitChars 10 (c :: r) 0, ?_⟩
      simp [readExponent?, hm, hall]
  · simp only [isSign, Bool.or_eq_true, decide_eq_true_eq] at hs
    obtain rfl | rfl := hs
    · exact ⟨Nat.ofDigitChars 10 ds 0, by simp [readExponent?, hall, hne]⟩
    · exact ⟨-Nat.ofDigitChars 10 ds 0, by simp [readExponent?, hall, hne]⟩

theorem takeWhile_digits {ds t : List Char} (hd : Digits ds)
    (ht : ∀ c r, t = c :: r → c.isDigit = false) :
    (ds ++ t).takeWhile Char.isDigit = ds ∧ (ds ++ t).dropWhile Char.isDigit = t := by
  rw [List.takeWhile_append_of_pos hd, List.dropWhile_append_of_pos hd]
  cases t with
  | nil => exact ⟨List.append_nil ds, rfl⟩
  | cons c r =>
    have hc := ht c r rfl
    rw [List.takeWhile_cons_of_neg (by simp [hc]), List.dropWhile_cons_of_neg (by simp [hc])]
    exact ⟨List.append_nil ds, rfl⟩

/-- The value of digits and a point, under a scale. -/
theorem exists_read? {ds t : List Char} (hne : ds ≠ []) (hd : Digits ds)
    (ht : IsScale t ∨ ∃ fs z, t = '.' :: (fs ++ z) ∧ Digits fs ∧ IsScale z) :
    ∃ d, read? (ds ++ t) = some d := by
  have hscale {z : List Char} (hz : IsScale z) : ∀ c r, z = c :: r → c.isDigit = false := by
    rintro c r rfl
    obtain hz | ⟨m, r', hz, hm, -⟩ := hz
    · cases hz
    · cases hz
      exact (of_isExponentMark hm).1
  have hhead : ∀ c r, t = c :: r → c.isDigit = false := by
    obtain ht | ⟨fs, z, rfl, -, -⟩ := ht
    · exact hscale ht
    · intro c r h
      cases h
      rfl
  obtain ⟨htake, hdrop⟩ := takeWhile_digits hd hhead
  unfold read?
  simp only [htake, hdrop, List.isEmpty_eq_false_iff.2 hne, Bool.false_and, Bool.false_eq_true,
    if_false]
  obtain (rfl | ⟨m, r, rfl, hm, hr⟩) | ⟨fs, z, rfl, hf, hz⟩ := ht
  · exact ⟨_, rfl⟩
  · obtain ⟨-, hp, hm⟩ := of_isExponentMark hm
    obtain ⟨e, he⟩ := exists_readExponent? hr
    simp [hp, hm, he]
  · obtain ⟨hf₁, hf₂⟩ := takeWhile_digits hf (hscale hz)
    simp only [hf₁, hf₂]
    obtain rfl | ⟨m, r, rfl, hm, hr⟩ := hz
    · exact ⟨_, rfl⟩
    · obtain ⟨-, -, hm⟩ := of_isExponentMark hm
      obtain ⟨e, he⟩ := exists_readExponent? hr
      simp [hm, he]

end Decimal

/-! Literals without their low lines -/

namespace Literal

open Decimal

variable {x y z : List Char}

theorem digits_filter (h : ∀ c ∈ y, isDigitOrLowLine c = true) : Digits (y.filter (· ≠ '_')) := by
  intro c hc
  obtain ⟨hc, hne⟩ := List.mem_filter.1 hc
  have hd := h c hc
  simp only [isDigitOrLowLine, of_decide_eq_true hne, decide_false, Bool.or_false] at hd
  exact hd

theorem not_mark_of_digit {c : Char} (h : c.isDigit = true) : isExponentMark c = false := by
  refine Bool.eq_false_iff.2 fun hm => ?_
  rw [(of_isExponentMark hm).1] at h
  cases h

theorem exponentPart_append {m : Char} (h : ∀ c ∈ x, isExponentMark c = false)
    (hm : isExponentMark m = true) (r : List Char) : exponentPart (x ++ m :: r) = some r := by
  have hx : ∀ c ∈ x, (!isExponentMark c) = true := fun c hc => by simp [h c hc]
  rw [exponentPart, List.dropWhile_append_of_pos hx, List.dropWhile_cons_of_neg (by simp [hm])]

theorem exponentPart_eq_none (h : ∀ c ∈ x, isExponentMark c = false) : exponentPart x = none := by
  have hx : ∀ c ∈ x, (!isExponentMark c) = true := fun c hc => by simp [h c hc]
  rw [exponentPart, List.dropWhile_eq_nil_iff.2 hx]

theorem exponent_filter (h : z ∈ Group.exponent) : ∃ m r, z.filter (· ≠ '_') = m :: r ∧
    isExponentMark m = true ∧ ((r.dropWhile isSign).isEmpty = true ∨ IsExponent r) := by
  obtain ⟨m, y, rfl, hm, hy⟩ := Group.mem_exponent.1 h
  have hm' : m ≠ '_' := by
    rintro rfl
    cases hm
  refine ⟨m, y.filter (· ≠ '_'), by simp [hm'], hm, ?_⟩
  obtain hy | ⟨s, z, rfl, hs, hz⟩ := hy
  · by_cases hne : y.filter (· ≠ '_') = []
    · exact .inl (by rw [hne]; rfl)
    · exact .inr ⟨_, hne, digits_filter hy, .inl rfl⟩
  · have hs' : s ≠ '_' := by
      rintro rfl
      cases hs
    have hf : (s :: z).filter (· ≠ '_') = s :: z.filter (· ≠ '_') := by simp [hs']
    rw [hf]
    by_cases hne : z.filter (· ≠ '_') = []
    · exact .inl (by rw [hne, List.dropWhile_cons_of_pos hs]; rfl)
    · exact .inr ⟨_, hne, digits_filter hz, .inr ⟨s, hs, rfl⟩⟩

def lacksDigits (e : List Char) : Bool := (e.dropWhile isSign).isEmpty

/-- What is behind the first digits of a float is the tail of a decimal, unless it has an exponent
without digits. -/
theorem tail_filter {ds : List Char} (hd : Digits ds)
    (hz : z ∈ Group.exponent ∨ ∃ v w, z = '.' :: (v ++ w) ∧
      (∀ c ∈ v, isDigitOrLowLine c = true) ∧ (w = [] ∨ w ∈ Group.exponent))
    (he : (exponentPart (ds ++ z.filter (· ≠ '_'))).any lacksDigits = false) :
    IsScale (z.filter (· ≠ '_')) ∨
      ∃ fs w, z.filter (· ≠ '_') = '.' :: (fs ++ w) ∧ Digits fs ∧ IsScale w := by
  have hmarks {ds : List Char} (hd : Digits ds) : ∀ d ∈ ds, isExponentMark d = false :=
    fun d hm => not_mark_of_digit (hd d hm)
  obtain hz | ⟨v, w, rfl, hv, hw⟩ := hz
  · obtain ⟨m, r, hf, hm, hr⟩ := exponent_filter hz
    rw [hf, exponentPart_append (hmarks hd) hm] at he
    exact .inl (.inr ⟨m, r, hf, hm, hr.resolve_left (ne_true_of_eq_false he)⟩)
  · have hf : ('.' :: (v ++ w)).filter (· ≠ '_') =
        '.' :: (v.filter (· ≠ '_') ++ w.filter (· ≠ '_')) := by simp
    refine .inr ⟨_, _, hf, digits_filter hv, ?_⟩
    obtain rfl | hw := hw
    · exact .inl rfl
    · obtain ⟨m, r, hw, hm, hr⟩ := exponent_filter hw
      have hpoint : ∀ c ∈ ds ++ '.' :: v.filter (· ≠ '_'), isExponentMark c = false := by
        refine List.forall_mem_append.2 ⟨hmarks hd, List.forall_mem_cons.2 ⟨rfl, ?_⟩⟩
        exact hmarks (digits_filter hv)
      rw [hf, hw, ← List.cons_append, ← List.append_assoc, exponentPart_append hpoint hm] at he
      exact .inr ⟨m, r, hw, hm, hr.resolve_left (ne_true_of_eq_false he)⟩

/-- What is cut as a float is read as a decimal, unless the digits of its exponent are missing. -/
theorem float_of_mem {k : Text.CharClasses} (hx : x ∈ Group.language k .float) :
    float x = .error ⟨.missingExponent, x⟩ ∨
      ∃ d, Decimal.read? (x.filter (· ≠ '_')) = some d ∧ float x = .ok (.float d.toFloat) := by
  obtain ⟨c, y, z, rfl, hc, hy, hz⟩ := Group.mem_float.1 hx
  have hds : Digits ((c :: y).filter (· ≠ '_')) :=
    digits_filter (List.forall_mem_cons.2 ⟨by simp [isDigitOrLowLine, hc], hy⟩)
  have hne : (c :: y).filter (· ≠ '_') ≠ [] := by
    have hc' : c ≠ '_' := by
      rintro rfl
      cases hc
    simp [hc']
  have hsplit : (c :: (y ++ z)).filter (· ≠ '_') =
      (c :: y).filter (· ≠ '_') ++ z.filter (· ≠ '_') := by
    rw [← List.cons_append, List.filter_append]
  unfold float
  simp only [hsplit]
  split
  · exact .inl rfl
  · next he =>
    obtain ⟨d, hd⟩ := exists_read? hne hds (tail_filter hds hz (Bool.eq_false_iff.2 he))
    exact .inr ⟨d, hd, by rw [hd]⟩

end Literal

theorem Lexeme.mem_language_first (k : Text.CharClasses) (c : Char) (t : List Char) :
    (first k c t).1.text ∈ (first k c t).1.group.language k :=
  ((isLongest_first k c t).mem_iff _).2 rfl

theorem Literal.integer_fault {radix : Nat} {body literal : List Char} {e : LexError}
    (h : integer radix body literal = .error e) : e.fault ≠ .malformed := by
  unfold integer at h
  split at h
  · cases h
    exact nofun
  · simp only at h
    split at h
    · cases h
    · cases h
      exact nofun

theorem Lexeme.token?_fault {k : Text.CharClasses} {c : Char} {t : List Char} {e : LexError}
    (h : (first k c t).1.token? = .error e) : e.fault ≠ .malformed := by
  have hmem := mem_language_first k c t
  have hmap {x : Except LexError Token} (hx : some <$> x = .error e) : x = .error e := by
    cases x with
    | error e' =>
      cases hx
      rfl
    | ok u => cases hx
  unfold token? at h
  split at h
  · exact Literal.integer_fault (hmap h)
  · next hg =>
    rw [hg] at hmem
    have hf := hmap h
    obtain he | ⟨d, -, he⟩ := Literal.float_of_mem hmem
    · rw [he] at hf
      cases hf
      exact nofun
    · rw [he] at hf
      cases hf
  · exact Literal.integer_fault (hmap h)
  · exact Literal.integer_fault (hmap h)
  · cases h
  · cases h
  · cases h
  · cases h

theorem tokensOf_fault {xs : List Lexeme} {e : LexError}
    (hx : ∀ x ∈ xs, ∀ e, x.token? = .error e → e.fault ≠ .malformed)
    (h : tokensOf xs = .error e) : e.fault ≠ .malformed := by
  induction xs with
  | nil => cases h
  | cons x xs ih =>
    have hx' : ∀ y ∈ xs, ∀ e, y.token? = .error e → e.fault ≠ .malformed :=
      fun y hy => hx y (List.mem_cons_of_mem x hy)
    rw [tokensOf] at h
    split at h
    · next he =>
      cases h
      exact hx x List.mem_cons_self _ he
    · exact ih hx' h
    · cases hr : tokensOf xs with
      | error e' =>
        rw [hr] at h
        cases h
        exact ih hx' hr
      | ok us =>
        rw [hr] at h
        cases h

/-- A literal that is refused has a wrong digit, is too large, or lacks the digits of its
exponent. -/
theorem tokenize_fault {k : Text.CharClasses} {text : List Char} {e : LexError}
    (h : tokenize k text = .error e) : e.fault ≠ .malformed := by
  refine tokensOf_fault (fun x hx e he => ?_) h
  obtain ⟨c, r, rfl⟩ := exists_first_of_mem_lexemes hx
  exact Lexeme.token?_fault he

end UnitCalculator
