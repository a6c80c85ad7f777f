import UnitCalculator.Proofs.Lexeme.Literal
import Mathlib.Data.List.Forall2
import Mathlib.Data.Nat.Digits.Defs

/-!
Literals of integers. Behind the mark of its radix, a literal is read as the number that its digits
denote, and refused if it has none, if one of its characters is no digit of the radix, or if the number
is too large. A binary literal may repeat its mark, and is then read as what is behind the second one.
-/

set_option autoImplicit false

namespace UnitCalculator

/-! Digits -/

namespace Literal

variable {b n : Nat} {c : Char} {ds : List Char}

def IsDigit (c : Char) (d : Nat) : Prop :=
  d < 16 ∧ (c = Nat.digitChar d ∨ c = (Nat.digitChar d).toUpper)

instance (c : Char) (d : Nat) : Decidable (IsDigit c d) := inferInstanceAs (Decidable (_ ∧ _))

/-- The characters are the digits of `n` in radix `b`, the first digit highest. -/
def Denotes (b : Nat) (ds : List Char) (n : Nat) : Prop :=
  ds ≠ [] ∧ ∃ vs, List.Forall₂ IsDigit ds vs ∧ (∀ v ∈ vs, v < b) ∧ Nat.ofDigits b vs.reverse = n

theorem digitValue_digitChar {d : Nat} (h : d < 16) : digitValue (Nat.digitChar d) = d := by
  have hall : ∀ d < 16, digitValue (Nat.digitChar d) = d := by decide
  exact hall d h

theorem digitValue_of_isDigit {d : Nat} (h : IsDigit c d) : digitValue c = d := by
  have hall : ∀ d < 16, digitValue (Nat.digitChar d).toUpper = d := by decide
  obtain ⟨hd, rfl | rfl⟩ := h
  · exact digitValue_digitChar hd
  · exact hall d hd

theorem isDigit_digitValue (h : digitValue c < 16) : IsDigit c (digitValue c) := by
  have hall : ∀ n < 103, digitValue (Char.ofNat n) < 16 →
      IsDigit (Char.ofNat n) (digitValue (Char.ofNat n)) := by decide
  have hlt : c.toNat < 103 := by
    refine Nat.lt_of_not_le fun hc => ?_
    have above {a : Char} (ha : a.toNat < 103) : ¬c ≤ a := fun hca =>
      Nat.not_lt.2 (Nat.le_trans hc hca) ha
    have h9 : ¬c ≤ '9' := above (by decide)
    have hf : ¬c ≤ 'f' := above (by decide)
    have hF : ¬c ≤ 'F' := above (by decide)
    simp [digitValue, h9, hf, hF] at h
  rw [← Char.ofNat_toNat c] at h ⊢
  exact hall _ hlt h

/-! Values -/

theorem value_append (ds : List Char) (c : Char) :
    value b (ds ++ [c]) = value b ds * b + digitValue c := by
  simp [value, List.foldl_append]

theorem value_cons (b : Nat) (c : Char) (ds : List Char) :
    value b (c :: ds) = digitValue c * b ^ ds.length + value b ds := by
  induction ds using List.reverseRecOn with
  | nil => simp [value]
  | append_singleton ds d ih =>
    rw [← List.cons_append, value_append, value_append, ih, List.length_append]
    simp only [List.length_singleton, Nat.pow_succ, Nat.add_mul, Nat.mul_assoc, Nat.add_assoc]

theorem digitValue_pos (hc : Text.isAsciiDigit c = true) (h₀ : c ≠ '0') : 0 < digitValue c := by
  have hv : digitValue c = c.toNat - '0'.toNat := if_pos hc
  have hne : c.toNat ≠ '0'.toNat := fun h => h₀ (Char.toNat_inj.1 h)
  have hle : '0'.toNat ≤ c.toNat := of_decide_eq_true (Bool.and_eq_true _ _ ▸ hc).1
  omega

/-- A decimal does not begin with a zero, so what is too long to be read is too large as well. -/
theorem greatest_lt_value (hc : 0 < digitValue c) (hl : decimalDigitLimit ≤ ds.length) :
    Whole.greatest < value 10 (c :: ds) := by
  have hpow : 10 ^ 39 ≤ value 10 (c :: ds) := calc
    10 ^ 39 ≤ 10 ^ ds.length := Nat.pow_le_pow_right (by decide) (Nat.le_trans (by decide) hl)
    _ ≤ digitValue c * 10 ^ ds.length := Nat.le_mul_of_pos_left _ hc
    _ ≤ value 10 (c :: ds) := by
      rw [value_cons]
      exact Nat.le_add_right _ _
  have hgreatest : Whole.greatest = 2 ^ 127 - 1 := rfl
  omega

theorem value_eq_ofDigits (b : Nat) (ds : List Char) :
    value b ds = Nat.ofDigits b (ds.map digitValue).reverse := by
  induction ds using List.reverseRecOn with
  | nil => rfl
  | append_singleton ds c ih =>
    rw [value_append, ih, List.map_append, List.reverse_append]
    simp [Nat.ofDigits_cons, Nat.add_comm, Nat.mul_comm]

theorem denotes_iff (hb : b ≤ 16) :
    Denotes b ds n ↔ ds ≠ [] ∧ (∀ c ∈ ds, digitValue c < b) ∧ value b ds = n := by
  have hvalues {vs : List Nat} (h : List.Forall₂ IsDigit ds vs) : vs = ds.map digitValue := by
    induction h with
    | nil => rfl
    | cons hc _ ih => rw [List.map_cons, digitValue_of_isDigit hc, ih]
  constructor
  · rintro ⟨hne, vs, hd, hlt, rfl⟩
    obtain rfl := hvalues hd
    exact ⟨hne, fun c hc => hlt _ (List.mem_map_of_mem hc), value_eq_ofDigits b ds⟩
  · rintro ⟨hne, hlt, rfl⟩
    refine ⟨hne, ds.map digitValue, ?_, List.forall_mem_map.2 hlt, (value_eq_ofDigits b ds).symm⟩
    refine List.forall₂_map_right_iff.2 (List.forall₂_same.2 fun c hc => ?_)
    exact isDigit_digitValue (Nat.lt_of_lt_of_le (hlt c hc) hb)

theorem Denotes.unique {m : Nat} (h : Denotes b ds m) (hb : b ≤ 16) (h' : Denotes b ds n) :
    m = n := ((denotes_iff hb).1 h).2.2.symm.trans ((denotes_iff hb).1 h').2.2

theorem not_isDigit_iff (hb : b ≤ 16) : (∀ d < b, ¬IsDigit c d) ↔ ¬digitValue c < b := by
  constructor
  · intro h hc
    exact h _ hc (isDigit_digitValue (Nat.lt_of_lt_of_le hc hb))
  · intro h d hd hc
    rw [digitValue_of_isDigit hc] at h
    exact h hd

/-! What is read -/

section

variable {body : List Char} (literal : List Char) (hds : dropMark b (body.filter (· ≠ '_')) = ds)

include hds

theorem integer_of_invalid (h : ds = [] ∨ ∃ c ∈ ds, ¬digitValue c < b) :
    integer b body literal = .error ⟨.invalidDigit b, literal⟩ := by
  have hnone : digits? b body = none := by
    unfold digits?
    simp only [hds]
    refine if_pos ?_
    obtain rfl | ⟨c, hc, hlt⟩ := h
    · rfl
    · have hall : ds.all (fun c => digitValue c < b) = false :=
        List.all_eq_false.2 ⟨c, hc, by simpa using hlt⟩
      rw [hall, Bool.not_false, Bool.or_true]
  rw [integer, hnone]

theorem digits?_of_valid (hne : ds ≠ []) (hd : ∀ c ∈ ds, digitValue c < b) :
    digits? b body = if b = 10 ∧ decimalDigitLimit < ds.length then none else some ds := by
  have hall : ds.all (fun c => digitValue c < b) = true :=
    List.all_eq_true.2 fun c hc => decide_eq_true (hd c hc)
  unfold digits?
  simp only [hds, hall, List.isEmpty_eq_false_iff.2 hne, Bool.not_true, Bool.or_self,
    Bool.false_eq_true, if_false, Bool.and_eq_true, decide_eq_true_eq]

theorem integer_of_short (hne : ds ≠ []) (hd : ∀ c ∈ ds, digitValue c < b)
    (hshort : b = 10 → ds.length ≤ decimalDigitLimit) :
    integer b body literal = if (value b ds : Int) ≤ Whole.greatest then .ok (.int (value b ds))
      else .error ⟨.tooLarge, literal⟩ := by
  have hlong : ¬(b = 10 ∧ decimalDigitLimit < ds.length) := fun h => Nat.not_lt.2 (hshort h.1) h.2
  rw [integer, digits?_of_valid hds hne hd, if_neg hlong]

/-- Decimals that are too long are not read, but those are too large in any case. -/
theorem integer_of_valid (hne : ds ≠ []) (hd : ∀ c ∈ ds, digitValue c < b)
    (hlong : b = 10 → decimalDigitLimit < ds.length → Whole.greatest < value b ds) :
    ((value b ds : Int) ≤ Whole.greatest ∧ integer b body literal = .ok (.int (value b ds))) ∨
      Whole.greatest < value b ds ∧ ∃ f, integer b body literal = .error ⟨f, literal⟩ := by
  by_cases hl : b = 10 ∧ decimalDigitLimit < ds.length
  · refine .inr ⟨hlong hl.1 hl.2, .invalidDigit b, ?_⟩
    rw [integer, digits?_of_valid hds hne hd, if_pos hl]
  · have h := integer_of_short literal hds hne hd fun hb =>
      Nat.le_of_not_lt fun hlt => hl ⟨hb, hlt⟩
    by_cases hn : (value b ds : Int) ≤ Whole.greatest
    · exact .inl ⟨hn, h.trans (if_pos hn)⟩
    · exact .inr ⟨Int.lt_of_not_ge hn, .tooLarge, h.trans (if_neg hn)⟩

end

end Literal

namespace Lexeme

open Literal

/-- The lexeme is the token of the number that the digits denote, and is refused if they denote none
or one that is too large. -/
structure Validated (x : Lexeme) (b : Nat) (ds : List Char) : Prop where
  token (n : Nat) : x.token? = .ok (some (.int n)) ↔ Denotes b ds n ∧ (n : Int) ≤ Whole.greatest
  refused : (∃ f, x.token? = .error ⟨f, x.text⟩) ↔
    ds = [] ∨ (∃ c ∈ ds, ∀ d < b, ¬IsDigit c d) ∨ ∃ n : Nat, Denotes b ds n ∧ Whole.greatest < n

namespace Validated

variable {x : Lexeme} {b : Nat} {ds : List Char}

theorem of_invalid (hb : b ≤ 16) (h : ds = [] ∨ ∃ c ∈ ds, ¬digitValue c < b)
    (hx : x.token? = .error ⟨.invalidDigit b, x.text⟩) : x.Validated b ds := by
  have hnone (n : Nat) : ¬Denotes b ds n := by
    rw [denotes_iff hb]
    rintro ⟨hne, hd, -⟩
    obtain h | ⟨c, hc, hlt⟩ := h
    · exact hne h
    · exact hlt (hd c hc)
  refine ⟨fun n => iff_of_false (by rw [hx]; exact nofun) fun hn => hnone n hn.1, ?_⟩
  refine iff_of_true ⟨_, hx⟩ ?_
  obtain h | ⟨c, hc, hlt⟩ := h
  · exact .inl h
  · exact .inr (.inl ⟨c, hc, (not_isDigit_iff hb).2 hlt⟩)

theorem of_le {n : Nat} (hb : b ≤ 16) (h : Denotes b ds n) (hn : (n : Int) ≤ Whole.greatest)
    (hx : x.token? = .ok (some (.int n))) : x.Validated b ds := by
  refine ⟨fun m => ?_, iff_of_false (by rw [hx]; exact nofun) ?_⟩
  · rw [hx]
    constructor
    · intro hm
      cases hm
      exact ⟨h, hn⟩
    · rintro ⟨hm, -⟩
      rw [h.unique hb hm]
  · rintro (rfl | ⟨c, hc, hnot⟩ | ⟨m, hm, hlt⟩)
    · exact h.1 rfl
    · exact (not_isDigit_iff hb).1 hnot (((denotes_iff hb).1 h).2.1 c hc)
    · rw [← h.unique hb hm] at hlt
      omega

theorem of_greater {n : Nat} {f : LiteralFault} (hb : b ≤ 16) (h : Denotes b ds n)
    (hn : Whole.greatest < n) (hx : x.token? = .error ⟨f, x.text⟩) : x.Validated b ds := by
  refine ⟨fun m => iff_of_false (by rw [hx]; exact nofun) fun ⟨hm, hle⟩ => ?_, ?_⟩
  · rw [← h.unique hb hm] at hle
    omega
  · exact iff_of_true ⟨f, hx⟩ (.inr (.inr ⟨n, h, hn⟩))

theorem of_integer {body : List Char} (hx : x.token? = some <$> integer b body x.text)
    (hb : b ≤ 16) (hds : dropMark b (body.filter (· ≠ '_')) = ds)
    (hlong : ds ≠ [] → b = 10 → decimalDigitLimit < ds.length → Whole.greatest < value b ds) :
    x.Validated b ds := by
  by_cases h : ds = [] ∨ ∃ c ∈ ds, ¬digitValue c < b
  · rw [integer_of_invalid x.text hds h] at hx
    exact of_invalid hb h hx
  · obtain ⟨hne, hd⟩ := not_or.1 h
    have hd : ∀ c ∈ ds, digitValue c < b := by simpa using hd
    have hn : Denotes b ds (value b ds) := (denotes_iff hb).2 ⟨hne, hd, rfl⟩
    obtain ⟨hle, hi⟩ | ⟨hlt, f, hi⟩ := integer_of_valid x.text hds hne hd (hlong hne)
    · rw [hi] at hx
      exact of_le hb hn hle hx
    · rw [hi] at hx
      exact of_greater hb hn hlt hx

end Validated

/-! Literals in their notations -/

/-- The radix of an integer, by its mark: none for decimal, a zero for octal. -/
def radix (x : Lexeme) : Nat :=
  match x.group, x.text with
  | .radix, _ :: m :: _ => if m = 'x' || m = 'X' then 16 else 2
  | .octal, _ => 8
  | _, _ => 10

def body (x : Lexeme) : List Char :=
  match x.group with
  | .radix => x.text.drop 2
  | .octal => x.text.drop 1
  | _ => x.text

def digits (x : Lexeme) : List Char := x.body.filter (· ≠ '_')

/-- A binary literal with a second mark behind the first. -/
def RepeatsMark (x : Lexeme) : Prop :=
  x.radix = 2 ∧ ∃ m ds, x.digits = '0' :: m :: ds ∧ (m = 'b' ∨ m = 'B')

theorem dropMark_digits {x : Lexeme} (h : ¬x.RepeatsMark) :
    dropMark x.radix x.digits = x.digits := by
  unfold dropMark
  split
  · next m ds he =>
    refine (if_neg fun hm => h ?_).trans he.symm
    simp only [Bool.and_eq_true, Bool.or_eq_true, decide_eq_true_eq] at hm
    exact ⟨hm.1, m, ds, he, hm.2⟩
  · rfl

theorem RepeatsMark.dropMark_digits {x : Lexeme} (h : x.RepeatsMark) :
    dropMark x.radix x.digits = x.digits.drop 2 := by
  obtain ⟨hr, m, ds, he, hm⟩ := h
  rw [hr, he]
  exact if_pos (by simpa using hm)

variable {k : Text.CharClasses} {x : Lexeme}

def IsInteger (x : Lexeme) : Prop := x.group = .radix ∨ x.group = .octal ∨ x.group = .decimal

theorem IsInteger.token?_eq (h : x.IsInteger) (hx : x.text ∈ x.group.language k) :
    x.token? = some <$> integer x.radix x.body x.text ∧ x.radix ≤ 16 := by
  obtain ⟨g, text⟩ := x
  obtain rfl | rfl | rfl := h
  · obtain ⟨m, y, rfl, -⟩ := Group.mem_radix.1 hx
    refine ⟨rfl, ?_⟩
    simp only [radix]
    split <;> decide
  · exact ⟨rfl, (by decide : 8 ≤ 16)⟩
  · exact ⟨rfl, (by decide : 10 ≤ 16)⟩

theorem IsInteger.greatest_lt (h : x.IsInteger) (hx : x.text ∈ x.group.language k)
    (hr : x.radix = 10) (hl : decimalDigitLimit < x.digits.length) :
    Whole.greatest < value x.radix x.digits := by
  obtain ⟨g, text⟩ := x
  obtain rfl | rfl | rfl := h
  · obtain ⟨m, y, rfl, -⟩ := Group.mem_radix.1 hx
    simp only [radix] at hr
    split at hr <;> omega
  · exact absurd hr (by decide : 8 ≠ 10)
  · obtain rfl | ⟨c, y, rfl, hc, h₀, -⟩ := Group.mem_decimal.1 hx
    · exact absurd hl (by decide)
    · have hlow : c ≠ '_' := by
        rintro rfl
        cases hc
      have hdigits : digits ⟨.decimal, c :: y⟩ = c :: y.filter (· ≠ '_') := by
        simp [digits, body, hlow]
      rw [hdigits] at hl ⊢
      exact greatest_lt_value (digitValue_pos hc h₀) (Nat.le_of_lt_succ hl)

/-- An integer that is cut from a text is the token of the number that its digits denote in its radix,
and is refused if it has no digits, a character that is no digit of the radix, or too large a value. A
binary literal that repeats its mark is what the digits behind the second mark are. -/
theorem integer_validated {text : List Char} (hx : x ∈ lexemes k text) (h : x.IsInteger) :
    (¬x.RepeatsMark → x.Validated x.radix x.digits) ∧
      (x.RepeatsMark → x.Validated 2 (x.digits.drop 2)) := by
  obtain ⟨c, t, rfl⟩ := exists_first_of_mem_lexemes hx
  have hmem := mem_language_first k c t
  obtain ⟨ht, hr⟩ := h.token?_eq hmem
  refine ⟨fun hm => ?_, fun hm => ?_⟩
  · exact .of_integer ht hr (dropMark_digits hm) fun _ hb hl => h.greatest_lt hmem hb hl
  · have hlong : (first k c t).1.radix ≠ 10 := by
      rw [hm.1]
      decide
    have hv := Validated.of_integer ht hr hm.dropMark_digits fun _ hb => absurd hb hlong
    rwa [hm.1] at hv

theorem integer_validated_octal :
    (⟨.octal, "01_9".toList⟩ : Lexeme) ∈ lexemes .standard "01_9".toList ∧
      (⟨.octal, "01_9".toList⟩ : Lexeme).IsInteger ∧
      ¬(⟨.octal, "01_9".toList⟩ : Lexeme).RepeatsMark ∧
      ∃ f, (⟨.octal, "01_9".toList⟩ : Lexeme).token? = .error ⟨f, "01_9".toList⟩ := by
  have hx : (⟨.octal, "01_9".toList⟩ : Lexeme) ∈ lexemes .standard "01_9".toList := by
    show _ ∈ lexemes .standard ('0' :: "1_9".toList)
    rw [lexemes_cons]
    exact List.mem_cons.2 (.inl rfl)
  have hi : (⟨.octal, "01_9".toList⟩ : Lexeme).IsInteger := .inr (.inl rfl)
  have hm : ¬(⟨.octal, "01_9".toList⟩ : Lexeme).RepeatsMark := fun h => absurd h.1 (by decide)
  refine ⟨hx, hi, hm, ?_⟩
  exact (((integer_validated hx hi).1 hm).refused).2 (.inr (.inl ⟨'9', by decide, by decide⟩))

/-- The mark of the binary radix is no binary digit, but a literal with two of them is read. -/
theorem repeated_mark_accepted : ∃ x ∈ lexemes .standard "0b0b1".toList, x.group = .radix ∧
    x.token? = .ok (some (.int 1)) ∧ ¬x.Validated x.radix x.digits := by
  refine ⟨⟨.radix, "0b0b1".toList⟩, ?_, rfl, rfl, fun h => ?_⟩
  · show _ ∈ lexemes .standard ('0' :: "b0b1".toList)
    rw [lexemes_cons]
    exact List.mem_cons.2 (.inl rfl)
  · have hb : ∀ d < 2, ¬IsDigit 'b' d := by decide
    obtain ⟨f, hf⟩ := h.refused.2 (.inr (.inl ⟨'b', by decide, hb⟩))
    cases hf

end Lexeme
end UnitCalculator
