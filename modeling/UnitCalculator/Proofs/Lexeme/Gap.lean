import UnitCalculator.Proofs.Lexeme.Sequence

/-!
White space between texts. It is part of no lexeme but white space, so the text in front of it and the
text behind it are cut as they are alone. White space at the end of a text leaves the tokens and the
trace as they were, and between two texts it keeps the tokens of the one from those of the other.
-/

set_option autoImplicit false

namespace UnitCalculator

open Text

variable {k : CharClasses} {gap : List Char}

/-! Lexemes with white space in them -/

namespace Group

def IsVisible (c : Char) : Prop := 32 < c.toNat ∧ c.toNat < 128

theorem IsVisible.not_space {c : Char} (h : IsVisible c) : k.space c = false := by
  rw [k.space_ascii c h.2]
  refine Bool.eq_false_iff.2 fun hs => ?_
  simp only [isAsciiSpace, Bool.or_eq_true, Bool.and_eq_true, decide_eq_true_eq, Char.le_def,
    UInt32.le_iff_toNat_le] at hs
  have hcr : ('\r' : Char).val.toNat = 13 := rfl
  have hle := h.1
  simp only [Char.toNat] at hle
  obtain rfl | hs := hs
  · exact absurd hle (by decide)
  · omega

theorem isVisible_numeral {c : Char} (h : isNumeral c = true) : IsVisible c := by
  have between {a b : Char} (ha : 32 < a.toNat) (hb : b.toNat < 128) (hc : a ≤ c ∧ c ≤ b) :
      IsVisible c := ⟨Nat.lt_of_lt_of_le ha hc.1, Nat.lt_of_le_of_lt hc.2 hb⟩
  simp only [isNumeral, isHexOrLowLine, isDigitOrLowLine, isAsciiDigit, Bool.or_eq_true,
    decide_eq_true_eq, Bool.and_eq_true] at h
  obtain (((((hd | rfl) | hl) | hu) | rfl) | rfl) | rfl := h
  · exact between (by decide) (by decide) hd
  · exact ⟨by decide, by decide⟩
  · exact between (by decide) (by decide) hl
  · exact between (by decide) (by decide) hu
  · exact ⟨by decide, by decide⟩
  · exact ⟨by decide, by decide⟩
  · exact ⟨by decide, by decide⟩

theorem isVisible_sign {c : Char} (h : isSign c = true) : IsVisible c := by
  simp only [isSign, Bool.or_eq_true, decide_eq_true_eq] at h
  obtain rfl | rfl := h
  · exact ⟨by decide, by decide⟩
  · exact ⟨by decide, by decide⟩

theorem not_space_of_numeric {g : Group} (hg : g.isNumeric = true) {y : List Char}
    (hy : y ∈ g.language k) {c : Char} (hc : c ∈ y) : k.space c = false := by
  obtain ⟨x, z, rfl⟩ := List.append_of_mem hc
  obtain hn | ⟨hs, -⟩ := spells_of_mem hg hy x c z rfl
  · exact (isVisible_numeral hn).not_space
  · exact (isVisible_sign hs).not_space

/-- A lexeme with white space in it is white space. -/
theorem eq_space_of_mem {g : Group} {y : List Char} (hy : y ∈ g.language k) {c : Char}
    (hc : c ∈ y) (hs : k.space c = true) : g = .space := by
  have numeric (hg : g.isNumeric = true) : g = .space := by
    rw [not_space_of_numeric hg hy hc] at hs
    cases hs
  cases g with
  | radix | float | octal | decimal => exact numeric rfl
  | operator =>
    have hop : isOperatorChar c = true := by
      obtain rfl | ⟨d, rfl, hd⟩ := mem_operator.1 hy
      · obtain rfl : c = '/' := by simpa using hc
        rfl
      · rwa [List.mem_singleton.1 hc]
    rw [(not_number_of_space hs).2] at hop
    cases hop
  | identifier =>
    obtain ⟨d, z, rfl, hd, hz⟩ := mem_identifier.1 hy
    obtain ⟨hletter, hdigit⟩ := k.space_not_word c hs
    obtain rfl | hc := List.mem_cons.1 hc
    · rw [hletter] at hd
      cases hd
    · have hword := hz c hc
      rw [CharClasses.word, hletter, hdigit] at hword
      cases hword
  | space => rfl
  | other =>
    obtain ⟨d, hd, rfl⟩ := hy
    rw [List.mem_singleton.1 hc] at hs
    simp [hs] at hd

theorem mem_space_iff {y : List Char} :
    y ∈ language k .space ↔ y ≠ [] ∧ ∀ c ∈ y, k.space c = true := by
  rw [mem_space]
  constructor
  · rintro ⟨c, z, rfl, hc, hz⟩
    exact ⟨List.cons_ne_nil c z, List.forall_mem_cons.2 ⟨hc, hz⟩⟩
  · rintro ⟨hne, hy⟩
    obtain ⟨c, z, rfl⟩ := List.exists_cons_of_ne_nil hne
    obtain ⟨hc, hz⟩ := List.forall_mem_cons.1 hy
    exact ⟨c, z, rfl, hc, hz⟩

end Group

/-! Lexemes in front of a gap -/

namespace Lexeme

theorem isLongest_space {rest : List Char} (hne : gap ≠ []) (hgap : ∀ c ∈ gap, k.space c = true)
    (hr : ∀ c, rest.head? = some c → k.space c = false) :
    (⟨.space, gap⟩ : Lexeme).IsLongest k rest := by
  refine .of_mem hne (Group.mem_space_iff.2 ⟨hne, hgap⟩) fun g _ y hy hp => ?_
  by_contra hl
  obtain ⟨c, z, rfl, hc⟩ := exists_of_longer_prefix hp (Nat.lt_of_not_le hl)
  obtain ⟨d, t, hd⟩ := List.exists_cons_of_ne_nil hne
  obtain rfl := Group.eq_space_of_mem hy (c := d) (by simp [hd]) (hgap d (by simp [hd]))
  have hs : k.space c = true := (Group.mem_space_iff.1 hy).2 c (by simp)
  rw [hr c hc] at hs
  cases hs

/-- White space behind the rest does not make a lexeme longer, whatever follows it, unless the lexeme
is white space up to there. -/
theorem IsLongest.append_gap {x : Lexeme} {rest behind : List Char} (hx : x.IsLongest k rest)
    (hb : ∀ c, behind.head? = some c → k.space c = true) (h : x.group ≠ .space ∨ rest ≠ []) :
    x.IsLongest k (rest ++ behind) := by
  refine .of_mem hx.nonempty ((hx.mem_iff _).2 rfl) fun g _ y hy hp => ?_
  obtain ⟨z, hz⟩ := hp
  rw [← List.append_assoc] at hz
  obtain ⟨as, hy', -⟩ | ⟨as, rfl, hg⟩ := List.append_eq_append_iff.1 hz
  · exact hx.longest g y hy ⟨as, hy'.symm⟩
  · cases as with
    | nil => exact hx.longest g _ hy ⟨[], by simp⟩
    | cons c as =>
      -- a lexeme that reaches into the gap is white space altogether
      have hc : k.space c = true := hb c (by rw [hg]; rfl)
      obtain rfl := Group.eq_space_of_mem hy (by simp) hc
      obtain ⟨-, hspace⟩ := Group.mem_space_iff.1 hy
      have hall : ∀ d ∈ x.text ++ rest, k.space d = true := fun d hd =>
        hspace d (List.mem_append_left _ hd)
      have hmem : x.text ++ rest ∈ Group.language k .space :=
        Group.mem_space_iff.2 ⟨by simp [hx.nonempty], hall⟩
      have hle := hx.longest _ _ hmem (List.prefix_refl _)
      have hrest : rest = [] := by
        rw [List.length_append] at hle
        exact List.eq_nil_of_length_eq_zero (by omega)
      have htext : x.text ∈ Group.language k .space :=
        Group.mem_space_iff.2 ⟨hx.nonempty, fun d hd => hall d (List.mem_append_left _ hd)⟩
      exact absurd ((hx.mem_iff _).1 htext).symm (h.resolve_right fun hn => hn hrest)

end Lexeme

/-- The lexemes that are no white space. -/
def visible (xs : List Lexeme) : List Lexeme := xs.filter (·.group ≠ .space)

theorem visible_cons (x : Lexeme) (xs : List Lexeme) :
    visible (x :: xs) = visible [x] ++ visible xs := List.filter_append [x] xs

theorem visible_space (text : List Char) : visible [⟨.space, text⟩] = [] := rfl

theorem visible_lexemes_dropWhile (text : List Char) :
    visible (lexemes k (text.dropWhile k.space)) = visible (lexemes k text) := by
  by_cases hne : text.takeWhile k.space = []
  · have ht := List.takeWhile_append_dropWhile (p := k.space) (l := text)
    rw [hne, List.nil_append] at ht
    rw [ht]
  · have hr (c : Char) (hc : (text.dropWhile k.space).head? = some c) : k.space c = false := by
      have h := List.head?_dropWhile_not k.space text
      rw [hc] at h
      simpa using h
    have hx := Lexeme.isLongest_space hne (List.all_eq_true.1 List.all_takeWhile) hr
    have hl := hx.lexemes_append
    rw [List.takeWhile_append_dropWhile] at hl
    rw [hl, visible_cons, visible_space, List.nil_append]

theorem visible_lexemes_space (hgap : ∀ c ∈ gap, k.space c = true) (text : List Char) :
    visible (lexemes k (gap ++ text)) = visible (lexemes k text) := by
  rw [← visible_lexemes_dropWhile, List.dropWhile_append_of_pos hgap, visible_lexemes_dropWhile]

/-- White space between two texts parts their lexemes. -/
theorem visible_lexemes_gap (a b : List Char) (hne : gap ≠ []) (hgap : ∀ c ∈ gap, k.space c = true) :
    visible (lexemes k (a ++ (gap ++ b))) = visible (lexemes k a) ++ visible (lexemes k b) := by
  have hb (c : Char) (hc : (gap ++ b).head? = some c) : k.space c = true := by
    obtain ⟨d, t, rfl⟩ := List.exists_cons_of_ne_nil hne
    cases hc
    exact hgap c List.mem_cons_self
  fun_induction lexemes k a with
  | case1 => exact visible_lexemes_space hgap b
  | case2 c t ih =>
    have hx := Lexeme.isLongest_first k c t
    have ht := Lexeme.first_append k c t
    generalize Lexeme.first k c t = p at hx ht ih ⊢
    obtain ⟨⟨g, x⟩, rest⟩ := p
    rw [← ht, List.append_assoc, visible_cons]
    by_cases h : g ≠ .space ∨ rest ≠ []
    · rw [(hx.append_gap hb h).lexemes_append, visible_cons, ih, List.append_assoc]
    · -- white space up to the end of the text, and more of it behind
      obtain ⟨hg, hr⟩ := not_or.1 h
      obtain rfl := not_not.1 hg
      obtain rfl := not_not.1 hr
      obtain ⟨-, hspace⟩ := Group.mem_space_iff.1 ((hx.mem_iff _).2 rfl)
      rw [visible_lexemes_space hspace, List.nil_append, visible_lexemes_space hgap, lexemes_nil]
      rfl

theorem tokensOf_visible (xs : List Lexeme) : tokensOf (visible xs) = tokensOf xs := by
  induction xs with
  | nil => rfl
  | cons x xs ih =>
    obtain ⟨g, text⟩ := x
    rw [visible_cons]
    cases g with
    | space => exact ih
    | _ =>
      change tokensOf (_ :: visible xs) = _
      rw [tokensOf, tokensOf, ih]

theorem tokenTrace_visible (xs : List Lexeme) : tokenTrace (visible xs) = tokenTrace xs := by
  induction xs with
  | nil => rfl
  | cons x xs ih =>
    obtain ⟨g, text⟩ := x
    rw [visible_cons]
    cases g with
    | space => exact ih
    | _ =>
      change tokenTrace (_ :: visible xs) = _
      rw [tokenTrace, tokenTrace, ih]

theorem visible_lexemes_append (text : List Char) (hgap : ∀ c ∈ gap, k.space c = true) :
    visible (lexemes k (text ++ gap)) = visible (lexemes k text) := by
  by_cases hne : gap = []
  · rw [hne, List.append_nil]
  · have h := visible_lexemes_gap text [] hne hgap
    rwa [List.append_nil, lexemes_nil, show visible [] = [] from rfl, List.append_nil] at h

/-! Tokens on both sides of a gap -/

theorem tokensOf_append (xs ys : List Lexeme) : tokensOf (xs ++ ys) = do
    let ts ← tokensOf xs
    let us ← tokensOf ys
    return ts ++ us := by
  induction xs with
  | nil =>
    show tokensOf ys = _
    cases tokensOf ys <;> rfl
  | cons x xs ih =>
    rw [List.cons_append, tokensOf, tokensOf, ih]
    cases x.token? with
    | error e => rfl
    | ok t =>
      cases t with
      | none => rfl
      | some t =>
        cases tokensOf xs with
        | error e => rfl
        | ok ts => cases tokensOf ys <;> rfl

theorem tokenize_gap (a b : List Char) (hne : gap ≠ []) (hgap : ∀ c ∈ gap, k.space c = true) :
    tokenize k (a ++ gap ++ b) = do
      let ts ← tokenize k a
      let us ← tokenize k b
      return ts ++ us := by
  unfold tokenize
  rw [List.append_assoc, ← tokensOf_visible, visible_lexemes_gap a b hne hgap, tokensOf_append,
    tokensOf_visible, tokensOf_visible]

theorem tokenize_intercalate (texts : List (List Char)) (hne : gap ≠ [])
    (hgap : ∀ c ∈ gap, k.space c = true) :
    tokenize k (gap.intercalate texts) = List.flatten <$> texts.mapM (tokenize k) := by
  induction texts with
  | nil => exact tokenize_nil k
  | cons a texts ih =>
    rw [List.mapM_cons]
    cases texts with
    | nil =>
      rw [List.intercalate_singleton]
      cases tokenize k a with
      | error e => rfl
      | ok ts => exact congrArg Except.ok (List.append_nil ts).symm
    | cons b texts =>
      rw [List.intercalate_cons_cons, tokenize_gap a _ hne hgap, ih]
      cases tokenize k a with
      | error e => rfl
      | ok ts => cases (b :: texts).mapM (tokenize k) <;> rfl

/-- White space between two texts separates them: the first literal that is refused in either is
refused in both together, and else their tokens come one after the other. So it is for any number of
texts. -/
theorem tokenize_separated (hne : gap ≠ []) (hgap : ∀ c ∈ gap, k.space c = true) :
    (∀ a b, tokenize k (a ++ gap ++ b) = do
      let ts ← tokenize k a
      let us ← tokenize k b
      return ts ++ us) ∧
      ∀ texts, tokenize k (gap.intercalate texts) = List.flatten <$> texts.mapM (tokenize k) :=
  ⟨fun a b => tokenize_gap a b hne hgap, fun texts => tokenize_intercalate texts hne hgap⟩

theorem tokenize_separated_slashes : [' '] ≠ [] ∧
    (∀ c ∈ [' '], CharClasses.standard.space c = true) ∧
    tokenize .standard "/ /".toList = .ok [.op .slash, .op .slash] := by
  have hne : [' '] ≠ [] := List.cons_ne_nil _ _
  have hgap : ∀ c ∈ [' '], CharClasses.standard.space c = true := List.forall_mem_singleton.2 rfl
  have hslash : tokenize .standard ['/'] = .ok [.op .slash] :=
    tokenize_cons rfl rfl (tokenize_nil _)
  have h := (tokenize_separated hne hgap).1 ['/'] ['/']
  rw [hslash] at h
  exact ⟨hne, hgap, h⟩

theorem tokenize_append (text : List Char) (hgap : ∀ c ∈ gap, k.space c = true) :
    tokenize k (text ++ gap) = tokenize k text := by
  rw [tokenize, ← tokensOf_visible, visible_lexemes_append text hgap, tokensOf_visible, tokenize]

theorem tokenTrace_append (text : List Char) (hgap : ∀ c ∈ gap, k.space c = true) :
    tokenTrace (lexemes k (text ++ gap)) = tokenTrace (lexemes k text) := by
  rw [← tokenTrace_visible, visible_lexemes_append text hgap, tokenTrace_visible]

end UnitCalculator
