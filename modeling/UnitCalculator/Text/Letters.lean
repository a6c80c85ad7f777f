import UnitCalculator.Text.CharTable

/-!
The three classes of characters that the words and gaps of a line are made of. What is a letter,
a digit or white space beyond ASCII is a parameter; the classes agree with ASCII, and white space
is never part of a word.
-/

set_option autoImplicit false

namespace UnitCalculator.Text

def isAsciiLetter (c : Char) : Bool := ('a' ≤ c && c ≤ 'z') || ('A' ≤ c && c ≤ 'Z')

def isAsciiDigit (c : Char) : Bool := '0' ≤ c && c ≤ '9'

def isAsciiSpace (c : Char) : Bool := c = ' ' || ('\t' ≤ c && c ≤ '\r')

structure CharClasses where
  /-- Letters and marks, and the low line. -/
  letter : Char → Bool
  digit : Char → Bool
  space : Char → Bool
  letter_ascii : ∀ c : Char, c.toNat < 128 → letter c = (isAsciiLetter c || c = '_')
  digit_ascii : ∀ c : Char, c.toNat < 128 → digit c = isAsciiDigit c
  space_ascii : ∀ c : Char, c.toNat < 128 → space c = isAsciiSpace c
  space_not_word : ∀ c : Char, space c = true → letter c = false ∧ digit c = false

def CharClasses.word (k : CharClasses) (c : Char) : Bool := k.letter c || k.digit c

def wideSpaces : CharTable :=
  [(0x85, 0x85), (0xa0, 0xa0), (0x1680, 0x1680), (0x2000, 0x200a), (0x2028, 0x2029),
   (0x202f, 0x202f), (0x205f, 0x205f), (0x3000, 0x3000)]

/-- Decimal digits beyond ASCII, script by script: Arabic-Indic (two rows), Devanagari, Bengali,
Thai and the fullwidth forms. -/
def wideDigits : CharTable :=
  [(0x660, 0x669), (0x6f0, 0x6f9), (0x966, 0x96f), (0x9e6, 0x9ef), (0xe50, 0xe59),
   (0xff10, 0xff19)]

/-- Letters beyond ASCII, script by script: Latin, its extensions and phonetic letters, Greek,
Cyrillic, Armenian, Hebrew, Arabic, Devanagari, Thai, Georgian, Jamo, Latin and Greek extended,
letterlike symbols, number forms, circled letters, kana, Bopomofo, Han, Hangul, compatibility Han,
fullwidth and halfwidth forms, supplementary Han. -/
def wideLetters : CharTable :=
  [(0xaa, 0xaa), (0xb5, 0xb5), (0xba, 0xba), (0xc0, 0xd6), (0xd8, 0xf6), (0xf8, 0x2c1),
   (0x2c6, 0x2d1), (0x2e0, 0x2e4), (0x2ec, 0x2ec), (0x2ee, 0x2ee), (0x300, 0x374), (0x376, 0x377),
   (0x37a, 0x37d), (0x37f, 0x37f), (0x386, 0x386), (0x388, 0x38a), (0x38c, 0x38c), (0x38e, 0x3a1),
   (0x3a3, 0x3f5), (0x3f7, 0x481), (0x483, 0x52f), (0x531, 0x556), (0x560, 0x588), (0x5d0, 0x5ea),
   (0x620, 0x65f), (0x66e, 0x6d3), (0x904, 0x939), (0xe01, 0xe3a), (0x10a0, 0x10c5),
   (0x10d0, 0x10fa), (0x1100, 0x1248), (0x1e00, 0x1f15), (0x2102, 0x2102), (0x2107, 0x2107),
   (0x210a, 0x2113), (0x2115, 0x2115), (0x2119, 0x211d), (0x2124, 0x2124), (0x2126, 0x2126),
   (0x2128, 0x2128), (0x212a, 0x212d), (0x2160, 0x2188), (0x24b6, 0x24e9), (0x3041, 0x3096),
   (0x309d, 0x309f), (0x30a1, 0x30fa), (0x30fc, 0x30ff), (0x3105, 0x312f), (0x3131, 0x318e),
   (0x3400, 0x4dbf), (0x4e00, 0x9fff), (0xac00, 0xd7a3), (0xf900, 0xfa6d), (0xff21, 0xff3a),
   (0xff41, 0xff5a), (0xff66, 0xffbe), (0x20000, 0x2a6df)]

theorem not_has_of_ascii {t : CharTable} (ht : ∀ r ∈ t, 128 ≤ r.1) {c : Char}
    (h : c.toNat < 128) : t.has c = false := by
  cases hc : t.has c with
  | false => rfl
  | true =>
    obtain ⟨r, hr, hl, _⟩ := CharTable.has_iff.1 hc
    have := ht r hr
    omega

theorem not_has_of_apart {s t : CharTable} (hst : ∀ p ∈ s, ∀ q ∈ t, p.2 < q.1 ∨ q.2 < p.1)
    {c : Char} (h : s.has c = true) : t.has c = false := by
  cases hc : t.has c with
  | false => rfl
  | true =>
    obtain ⟨p, hp, hp₁, hp₂⟩ := CharTable.has_iff.1 h
    obtain ⟨q, hq, hq₁, hq₂⟩ := CharTable.has_iff.1 hc
    have := hst p hp q hq
    omega

theorem lt_of_ascii_letter {c : Char} (h : isAsciiLetter c = true) : c.toNat < 128 := by
  simp only [isAsciiLetter, Bool.or_eq_true, Bool.and_eq_true, decide_eq_true_eq, Char.le_def,
    UInt32.le_iff_toNat_le] at h
  have h₁ : ('z' : Char).val.toNat = 122 := rfl
  have h₂ : ('Z' : Char).val.toNat = 90 := rfl
  simp only [Char.toNat]
  omega

theorem lt_of_ascii_digit {c : Char} (h : isAsciiDigit c = true) : c.toNat < 128 := by
  simp only [isAsciiDigit, Bool.and_eq_true, decide_eq_true_eq, Char.le_def,
    UInt32.le_iff_toNat_le] at h
  have h₁ : ('9' : Char).val.toNat = 57 := rfl
  simp only [Char.toNat]
  omega

theorem not_word_of_ascii_space {c : Char} (h : isAsciiSpace c = true) :
    c.toNat < 128 ∧ isAsciiLetter c = false ∧ c ≠ '_' ∧ isAsciiDigit c = false := by
  have hn : c.toNat = 32 ∨ 9 ≤ c.toNat ∧ c.toNat ≤ 13 := by
    simp only [isAsciiSpace, Bool.or_eq_true, Bool.and_eq_true, decide_eq_true_eq, Char.le_def,
      UInt32.le_iff_toNat_le] at h
    rcases h with rfl | h
    · exact .inl rfl
    · exact .inr h
  refine ⟨by omega, ?_, ?_, ?_⟩
  · simp only [isAsciiLetter, Bool.or_eq_false_iff, Bool.and_eq_false_iff, decide_eq_false_iff_not,
      Char.le_def, UInt32.le_iff_toNat_le]
    have h₁ : ('a' : Char).val.toNat = 97 := rfl
    have h₂ : ('A' : Char).val.toNat = 65 := rfl
    simp only [Char.toNat] at hn
    omega
  · rintro rfl
    have h₁ : ('_' : Char).toNat = 95 := rfl
    omega
  · simp only [isAsciiDigit, Bool.and_eq_false_iff, decide_eq_false_iff_not, Char.le_def,
      UInt32.le_iff_toNat_le]
    have h₁ : ('0' : Char).val.toNat = 48 := rfl
    have h₂ : ('9' : Char).val.toNat = 57 := rfl
    simp only [Char.toNat] at hn
    omega

def CharClasses.standard : CharClasses where
  letter c := isAsciiLetter c || c = '_' || wideLetters.has c
  digit c := isAsciiDigit c || wideDigits.has c
  space c := isAsciiSpace c || wideSpaces.has c
  letter_ascii c h := by simp [not_has_of_ascii (t := wideLetters) (by decide) h]
  digit_ascii c h := by simp [not_has_of_ascii (t := wideDigits) (by decide) h]
  space_ascii c h := by simp [not_has_of_ascii (t := wideSpaces) (by decide) h]
  space_not_word c h := by
    rcases Bool.or_eq_true _ _ ▸ h with h | h
    · obtain ⟨hc, h₁, h₂, h₃⟩ := not_word_of_ascii_space h
      simp [h₁, h₂, h₃, not_has_of_ascii (t := wideLetters) (by decide) hc,
        not_has_of_ascii (t := wideDigits) (by decide) hc]
    · have hw : 128 ≤ c.toNat := by
        obtain ⟨r, hr, hl, _⟩ := CharTable.has_iff.1 h
        exact Nat.le_trans ((by decide : ∀ r ∈ wideSpaces, 128 ≤ r.1) r hr) hl
      have h₁ : isAsciiLetter c = false := by
        cases hl : isAsciiLetter c with
        | false => rfl
        | true => have := lt_of_ascii_letter hl; omega
      have h₂ : isAsciiDigit c = false := by
        cases hl : isAsciiDigit c with
        | false => rfl
        | true => have := lt_of_ascii_digit hl; omega
      have h₃ : c ≠ '_' := by
        rintro rfl
        exact absurd hw (by decide)
      simp [h₁, h₂, h₃, not_has_of_apart (t := wideLetters) (by decide) h,
        not_has_of_apart (t := wideDigits) (by decide) h]

end UnitCalculator.Text
