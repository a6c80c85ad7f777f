import UnitCalculator.Proofs.Lexeme.Language

/-!
The lexemes of a text are its one division into longest matches: each is the longest text of any group
that begins what is left, and belongs to one group only.
-/

set_option autoImplicit false

namespace UnitCalculator

open Text

namespace Group

variable {p : Char → Bool} {k : CharClasses}

/-! Runs -/

theorem run_append {x : List Char} (hx : ∀ c ∈ x, p c = true) (t : List Char) :
    run p (x ++ t) = x.length + run p t := by
  rw [run, List.takeWhile_append_of_pos hx, List.length_append, run]

theorem run_cons_of_not {c : Char} (hc : p c = false) (t : List Char) : run p (c :: t) = 0 := by
  simp [run, hc]

theorem exists_run (p : Char → Bool) (t : List Char) :
    ∃ x r, t = x ++ r ∧ (∀ c ∈ x, p c = true) ∧ run p t = x.length :=
  ⟨t.takeWhile p, t.dropWhile p, List.takeWhile_append_dropWhile.symm,
    List.all_eq_true.1 List.all_takeWhile, rfl⟩

/-- `n` characters are the longest beginning of a text that is in the language; none, if there is no
such beginning. -/
structure Longest (L : Language Char) (t : List Char) (n : Nat) : Prop where
  mem : 0 < n → t.take n ∈ L
  le : ∀ x r, t = x ++ r → x ∈ L → x.length ≤ n

/-! Each group reaches as far as its language does -/

theorem longest_radix (t : List Char) : Longest (language k radix) t (radixReach t) where
  mem h := by
    unfold radixReach at h ⊢
    split at h
    · next m t =>
      split at h
      · next hm =>
        obtain ⟨x, r, rfl, hx, hr⟩ := exists_run isHexOrLowLine t
        rw [if_pos hm, hr, Nat.add_comm]
        exact mem_radix.2 ⟨m, x, by simp, hm, hx⟩
      · omega
    · omega
  le := by
    rintro x r rfl hx
    obtain ⟨m, y, rfl, hm, hy⟩ := mem_radix.1 hx
    simp only [List.cons_append, radixReach, if_pos hm, run_append hy, List.length_cons]
    omega

theorem longest_octal (t : List Char) : Longest (language k octal) t (octalReach t) where
  mem h := by
    unfold octalReach at h ⊢
    split at h
    · next t =>
      obtain ⟨x, r, rfl, hx, hr⟩ := exists_run isDigitOrLowLine t
      rw [hr] at h ⊢
      cases x with
      | nil => simp at h
      | cons c x =>
        rw [if_pos (by simp), Nat.add_comm]
        exact mem_octal.2 ⟨c, x, by simp, hx⟩
    · omega
  le := by
    rintro x r rfl hx
    obtain ⟨c, y, rfl, hy⟩ := mem_octal.1 hx
    have hr := run_append hy r
    simp only [List.cons_append, List.length_cons] at hr
    simp only [List.cons_append, octalReach, hr, List.length_cons]
    rw [if_pos (by omega)]
    omega

theorem longest_decimal (t : List Char) : Longest (language k decimal) t (decimalReach t) where
  mem h := by
    cases t with
    | nil => simp [decimalReach] at h
    | cons c t =>
      rw [decimalReach] at h ⊢
      split at h
      · next h₀ =>
        rw [if_pos h₀, h₀]
        exact mem_decimal.2 (.inl rfl)
      · next h₀ =>
        split at h
        · next hc =>
          obtain ⟨x, r, rfl, hx, hr⟩ := exists_run isDigitOrLowLine t
          rw [if_neg h₀, if_pos hc, hr, Nat.add_comm]
          exact mem_decimal.2 (.inr ⟨c, x, by simp, hc, h₀, hx⟩)
        · omega
  le := by
    rintro x r rfl hx
    obtain rfl | ⟨c, y, rfl, hc, h₀, hy⟩ := mem_decimal.1 hx
    · simp [decimalReach]
    · simp only [List.cons_append, decimalReach, if_neg h₀, if_pos hc, run_append hy,
        List.length_cons]
      omega

theorem longest_identifier (t : List Char) :
    Longest (language k identifier) t (identifierReach k t) where
  mem h := by
    cases t with
    | nil => simp [identifierReach] at h
    | cons c t =>
      rw [identifierReach] at h ⊢
      split at h
      · next hc =>
        obtain ⟨x, r, rfl, hx, hr⟩ := exists_run k.word t
        rw [if_pos hc, hr, Nat.add_comm]
        exact mem_identifier.2 ⟨c, x, by simp, hc, hx⟩
      · omega
  le := by
    rintro x r rfl hx
    obtain ⟨c, y, rfl, hc, hy⟩ := mem_identifier.1 hx
    simp only [List.cons_append, identifierReach, if_pos hc, run_append hy, List.length_cons]
    omega

theorem longest_space (t : List Char) : Longest (language k space) t (run k.space t) where
  mem h := by
    obtain ⟨x, r, rfl, hx, hr⟩ := exists_run k.space t
    rw [hr] at h ⊢
    cases x with
    | nil => simp at h
    | cons c x =>
      obtain ⟨hc, hx⟩ := List.forall_mem_cons.1 hx
      exact mem_space.2 ⟨c, x, by simp, hc, hx⟩
  le := by
    rintro x r rfl hx
    obtain ⟨c, y, rfl, hc, hy⟩ := mem_space.1 hx
    rw [run_append (List.forall_mem_cons.2 ⟨hc, hy⟩)]
    omega

theorem operatorReach_pos {c : Char} (hc : isOperatorChar c = true) (t : List Char) :
    0 < operatorReach (c :: t) := by
  unfold operatorReach
  split
  · omega
  · next h =>
    cases h
    simp [hc]
  · next h => cases h

theorem longest_operator (t : List Char) : Longest (language k operator) t (operatorReach t) where
  mem h := by
    unfold operatorReach at h ⊢
    split at h
    · exact mem_operator.2 (.inl rfl)
    · next c t _ =>
      split at h
      · next hc =>
        rw [if_pos hc]
        exact mem_operator.2 (.inr ⟨c, rfl, hc⟩)
      · omega
    · omega
  le := by
    rintro x r rfl hx
    obtain rfl | ⟨c, rfl, hc⟩ := mem_operator.1 hx
    · exact Nat.le_refl 2
    · exact operatorReach_pos hc r

/-! Floats -/

theorem not_isSign {c : Char} (h : isDigitOrLowLine c = true) : isSign c = false := by
  refine Bool.eq_false_iff.2 fun hs => ?_
  simp only [isSign, Bool.or_eq_true, decide_eq_true_eq] at hs
  obtain rfl | rfl := hs <;> cases h

section

variable {e : Char} {t : List Char}

theorem exponentReach_of_not (he : isExponentMark e = false) : exponentReach (e :: t) = 0 := by
  cases t <;> simp [exponentReach, he]

theorem exponentReach_signed {s : Char} (he : isExponentMark e = true) (hs : isSign s = true) :
    exponentReach (e :: s :: t) = 2 + run isDigitOrLowLine t := by
  simp [exponentReach, he, hs]

theorem exponentReach_unsigned (he : isExponentMark e = true)
    (ht : ∀ s ∈ t.head?, isSign s = false) :
    exponentReach (e :: t) = 1 + run isDigitOrLowLine t := by
  cases t with
  | nil => simp [exponentReach, he, run]
  | cons s u => simp [exponentReach, he, ht s rfl]

end

theorem longest_exponent (t : List Char) : Longest exponent t (exponentReach t) where
  mem h := by
    cases t with
    | nil => simp [exponentReach] at h
    | cons e t =>
      cases he : isExponentMark e with
      | false =>
        rw [exponentReach_of_not he] at h
        omega
      | true =>
        refine mem_exponent.2 ?_
        by_cases hs : ∃ s u, t = s :: u ∧ isSign s = true
        · obtain ⟨s, u, rfl, hs⟩ := hs
          obtain ⟨x, r, rfl, hx, hr⟩ := exists_run isDigitOrLowLine u
          rw [exponentReach_signed he hs, hr, Nat.add_comm]
          exact ⟨e, s :: x, by simp, he, .inr ⟨s, x, rfl, hs, hx⟩⟩
        · have hs : ∀ s ∈ t.head?, isSign s = false := by
            cases t with
            | nil => simp
            | cons s u => simpa using hs
          obtain ⟨x, r, rfl, hx, hr⟩ := exists_run isDigitOrLowLine t
          rw [exponentReach_unsigned he hs, hr, Nat.add_comm]
          exact ⟨e, x, by simp, he, .inl hx⟩
  le := by
    rintro x r rfl hx
    obtain ⟨e, y, rfl, he, hy | ⟨s, z, rfl, hs, hz⟩⟩ := mem_exponent.1 hx
    · cases y with
      | nil =>
        have hpos : 0 < exponentReach (e :: r) := by
          by_cases hs : ∃ s u, r = s :: u ∧ isSign s = true
          · obtain ⟨s, u, rfl, hs⟩ := hs
            rw [exponentReach_signed he hs]
            omega
          · rw [exponentReach_unsigned he (by cases r <;> simp_all)]
            omega
        exact hpos
      | cons d y =>
        have hd : isSign d = false := not_isSign (hy d List.mem_cons_self)
        rw [List.cons_append, exponentReach_unsigned he (by simp [hd]), run_append hy,
          List.length_cons]
        omega
    · rw [List.cons_append, List.cons_append, exponentReach_signed he hs, run_append hz,
        List.length_cons, List.length_cons]
      omega

theorem run_exponent {x : List Char} (hx : x ∈ exponent) (r : List Char) :
    run isDigitOrLowLine (x ++ r) = 0 := by
  obtain ⟨e, y, rfl, he, -⟩ := mem_exponent.1 hx
  exact run_cons_of_not (of_isExponentMark he).1 _

/-- How far a float reaches from behind the digits before its point. -/
def tailReach : List Char → Nat
  | '.' :: t => 1 + run isDigitOrLowLine t + exponentReach (t.drop (run isDigitOrLowLine t))
  | t => exponentReach t

/-- What stands behind the digits before the point of a float. -/
def IsTail (z : List Char) : Prop :=
  z ∈ exponent ∨ ∃ v w, z = '.' :: (v ++ w) ∧ (∀ c ∈ v, isDigitOrLowLine c = true) ∧
    (w = [] ∨ w ∈ exponent)

theorem floatReach_eq {c : Char} {y t : List Char} (hc : isAsciiDigit c = true)
    (hy : ∀ d ∈ y, isDigitOrLowLine d = true) (ht : run isDigitOrLowLine t = 0) :
    floatReach (c :: (y ++ t)) = if 0 < tailReach t then 1 + y.length + tailReach t else 0 := by
  rw [floatReach, if_pos hc]
  simp only [run_append hy, ht, Nat.add_zero, Nat.add_sub_cancel_left, List.drop_left]
  split
  · simp only [tailReach]
    rw [if_pos (by omega)]
    omega
  · next h =>
    rw [tailReach]
    exact h

theorem isTail_take {t : List Char} (h : 0 < tailReach t) : IsTail (t.take (tailReach t)) := by
  unfold tailReach at h ⊢
  split
  · next t =>
    obtain ⟨x, r, rfl, hx, hr⟩ := exists_run isDigitOrLowLine t
    rw [hr, List.drop_left]
    refine .inr ⟨x, r.take (exponentReach r), ?_, hx, ?_⟩
    · rw [Nat.add_assoc, Nat.add_comm 1, List.take_succ_cons, List.take_length_add_append]
    · obtain h₀ | h₀ := Nat.eq_zero_or_pos (exponentReach r)
      · exact .inl (by rw [h₀, List.take_zero])
      · exact .inr ((longest_exponent r).mem h₀)
  · next hdot =>
    split at h
    · next u => exact absurd rfl (hdot u)
    · exact .inl ((longest_exponent _).mem h)

theorem tailReach_of_exponent {x : List Char} (hx : x ∈ exponent) (r : List Char) :
    tailReach (x ++ r) = exponentReach (x ++ r) := by
  obtain ⟨e, y, rfl, he, -⟩ := mem_exponent.1 hx
  rw [List.cons_append, tailReach]
  rintro u hu
  obtain ⟨rfl, -⟩ := List.cons.inj hu
  cases he

theorem tailReach_ge {z : List Char} (hz : IsTail z) (r : List Char) :
    z.length ≤ tailReach (z ++ r) := by
  obtain hz | ⟨v, w, rfl, hv, hw⟩ := hz
  · rw [tailReach_of_exponent hz]
    exact (longest_exponent _).le z r rfl hz
  · simp only [List.cons_append, List.append_assoc, tailReach, run_append hv, List.length_cons,
      List.length_append]
    obtain rfl | hw := hw
    · simp only [List.length_nil]
      omega
    · simp only [run_exponent hw, Nat.add_zero, List.drop_left]
      have := (longest_exponent (w ++ r)).le w r rfl hw
      omega

theorem run_tail {z : List Char} (hz : IsTail z) (r : List Char) :
    run isDigitOrLowLine (z ++ r) = 0 := by
  obtain hz | ⟨v, w, rfl, -⟩ := hz
  · exact run_exponent hz r
  · exact run_cons_of_not rfl _

theorem longest_float (t : List Char) : Longest (language k float) t (floatReach t) where
  mem h := by
    cases t with
    | nil => simp [floatReach] at h
    | cons c t =>
      cases hc : isAsciiDigit c with
      | false => simp [floatReach, hc] at h
      | true =>
        obtain ⟨y, r, rfl, hy, hr⟩ := exists_run isDigitOrLowLine t
        have h₀ : run isDigitOrLowLine r = 0 := by
          rw [run_append hy] at hr
          omega
        rw [floatReach_eq hc hy h₀] at h ⊢
        split at h
        · next ht =>
          rw [if_pos ht]
          refine mem_float.2 ⟨c, y, r.take (tailReach r), ?_, hc, hy, isTail_take ht⟩
          rw [Nat.add_assoc, Nat.add_comm 1, List.take_succ_cons, List.take_length_add_append]
        · omega
  le := by
    rintro x r rfl hx
    obtain ⟨c, y, z, rfl, hc, hy, hz⟩ := mem_float.1 hx
    have hle := tailReach_ge hz r
    have hpos : 0 < tailReach (z ++ r) := by
      refine Nat.lt_of_lt_of_le ?_ hle
      obtain hz | ⟨v, w, rfl, -⟩ := hz
      · obtain ⟨e, u, rfl, -⟩ := mem_exponent.1 hz
        exact Nat.succ_pos _
      · exact Nat.succ_pos _
    rw [List.cons_append, List.append_assoc, floatReach_eq hc hy (run_tail hz r), if_pos hpos]
    simp only [List.length_cons, List.length_append]
    omega

theorem longest_reach {g : Group} (hg : g ≠ other) (t : List Char) :
    Longest (language k g) t (g.reach k t) := by
  cases g with
  | radix => exact longest_radix t
  | float => exact longest_float t
  | octal => exact longest_octal t
  | decimal => exact longest_decimal t
  | operator => exact longest_operator t
  | identifier => exact longest_identifier t
  | space => exact longest_space t
  | other => exact absurd rfl hg

/-! The farthest group -/

/-- The best of some groups: the lexeme of one of them, or none yet. -/
structure IsBest (k : CharClasses) (t : List Char) (gs : List Group) (best : Group × Nat) :
    Prop where
  found : best = (other, 0) ∨ best.1 ≠ other ∧ best.2 = best.1.reach k t ∧ 0 < best.2
  le : ∀ g ∈ gs, g.reach k t ≤ best.2

theorem isBest_foldl {t : List Char} {gs hs : List Group} {best : Group × Nat}
    (h : IsBest k t hs best) (hgs : other ∉ gs) :
    IsBest k t (hs ++ gs)
      (gs.foldl (fun best g => if best.2 < g.reach k t then (g, g.reach k t) else best) best) := by
  induction gs generalizing hs best with
  | nil => simpa using h
  | cons g gs ih =>
    obtain ⟨hg, hgs⟩ := not_or.1 (List.mem_cons.not.1 hgs)
    rw [List.foldl_cons, List.append_cons]
    refine ih ?_ hgs
    split
    · next hlt =>
      refine ⟨.inr ⟨Ne.symm hg, rfl, by omega⟩, ?_⟩
      intro g' hg'
      obtain hg' | hg' := List.mem_append.1 hg'
      · exact Nat.le_of_lt (Nat.lt_of_le_of_lt (h.le g' hg') hlt)
      · rw [List.mem_singleton.1 hg']
    · next hle =>
      refine ⟨h.found, fun g' hg' => ?_⟩
      obtain hg' | hg' := List.mem_append.1 hg'
      · exact h.le g' hg'
      · rw [List.mem_singleton.1 hg']
        omega

theorem isBest_farthest (k : CharClasses) (t : List Char) : IsBest k t named (farthest k t) := by
  have h : IsBest k t [] (other, 0) := ⟨.inl rfl, by simp⟩
  exact isBest_foldl h (by decide)

theorem mem_named {g : Group} (hg : g ≠ other) : g ∈ named := by
  cases g <;> first | exact absurd rfl hg | decide

theorem exists_mem_singleton (k : CharClasses) (c : Char) : ∃ g, [c] ∈ language k g := by
  cases ho : isOperatorChar c with
  | true => exact ⟨operator, mem_operator.2 (.inr ⟨c, rfl, ho⟩)⟩
  | false =>
    cases hl : k.letter c with
    | true => exact ⟨identifier, mem_identifier.2 ⟨c, [], rfl, hl, by simp⟩⟩
    | false =>
      cases hd : isAsciiDigit c with
      | true =>
        refine ⟨decimal, mem_decimal.2 ?_⟩
        by_cases h₀ : c = '0'
        · exact .inl (h₀ ▸ rfl)
        · exact .inr ⟨c, [], rfl, hd, h₀, by simp⟩
      | false =>
        cases hs : k.space c with
        | true => exact ⟨space, mem_space.2 ⟨c, [], rfl, hs, by simp⟩⟩
        | false => exact ⟨other, c, by simp [ho, hl, hd, hs], rfl⟩

theorem length_le_farthest {g : Group} (hg : g ≠ other) {y t : List Char} (hy : y ∈ language k g)
    (ht : y <+: t) : y.length ≤ (farthest k t).2 := by
  obtain ⟨r, rfl⟩ := ht
  exact Nat.le_trans ((longest_reach hg _).le y r rfl hy)
    ((isBest_farthest k _).le g (mem_named hg))

end Group

variable {k : CharClasses}

namespace Lexeme

/-- A lexeme that belongs to its own group only, and that no beginning of it and the text behind it
exceeds in any group. -/
structure IsLongest (k : CharClasses) (x : Lexeme) (rest : List Char) : Prop where
  nonempty : x.text ≠ []
  mem_iff : ∀ g : Group, x.text ∈ g.language k ↔ g = x.group
  longest : ∀ g : Group, ∀ y ∈ g.language k, y <+: x.text ++ rest → y.length ≤ x.text.length

theorem IsLongest.of_mem {x : Lexeme} {rest : List Char} (hx : x.text ≠ [])
    (hmem : x.text ∈ x.group.language k)
    (h : ∀ g : Group, g ≠ .other → ∀ y ∈ g.language k, y <+: x.text ++ rest →
      y.length ≤ x.text.length) : x.IsLongest k rest where
  nonempty := hx
  mem_iff g := ⟨fun hg => Group.language_unique hg hmem, fun hg => hg ▸ hmem⟩
  longest g y hy hp := by
    by_cases hg : g = .other
    · subst hg
      obtain ⟨c, -, rfl⟩ := hy
      exact List.length_pos_of_ne_nil hx
    · exact h g hg y hy hp

theorem isLongest_first (k : CharClasses) (c : Char) (t : List Char) :
    (first k c t).1.IsLongest k (first k c t).2 := by
  have hle : ∀ g : Group, g ≠ .other → ∀ y ∈ g.language k,
      y <+: (first k c t).1.text ++ (first k c t).2 → y.length ≤ (Group.farthest k (c :: t)).2 := by
    intro g hg y hy hp
    rw [first_append] at hp
    exact Group.length_le_farthest hg hy hp
  obtain h₀ | ⟨hg, hn, hpos⟩ := (Group.isBest_farthest k (c :: t)).found
  · rw [h₀] at hle
    simp only [first, h₀, Nat.zero_sub, List.take_zero, List.drop_zero] at hle ⊢
    refine .of_mem (by simp) ?_ fun g hg y hy hp => Nat.le_succ_of_le (hle g hg y hy hp)
    obtain ⟨g, hc⟩ := Group.exists_mem_singleton k c
    by_cases hg : g = .other
    · exact hg ▸ hc
    · exact absurd (hle g hg [c] hc ⟨t, rfl⟩) (by simp)
  · have htext : (first k c t).1.text = (c :: t).take (Group.farthest k (c :: t)).2 := by
      obtain ⟨m, hm⟩ := Nat.exists_eq_add_one_of_ne_zero (Nat.ne_of_gt hpos)
      simp [first, hm]
    refine .of_mem (by simp [first]) ?_ fun g hg y hy hp => ?_
    · rw [htext, hn]
      exact (Group.longest_reach hg _).mem (hn ▸ hpos)
    · have hlen := hp.length_le
      rw [first_append] at hlen
      rw [htext, List.length_take]
      exact Nat.le_min.2 ⟨hle g hg y hy hp, hlen⟩

theorem IsLongest.unique {x y : Lexeme} {r s : List Char} (hx : x.IsLongest k r)
    (hy : y.IsLongest k s) (h : x.text ++ r = y.text ++ s) : x = y ∧ r = s := by
  have hlen : x.text.length = y.text.length :=
    Nat.le_antisymm (hy.longest _ _ ((hx.mem_iff _).2 rfl) (h ▸ List.prefix_append x.text r))
      (hx.longest _ _ ((hy.mem_iff _).2 rfl) (h ▸ List.prefix_append y.text s))
  obtain ⟨htext, hrest⟩ := List.append_inj h hlen
  have hgroup : x.group = y.group := (hy.mem_iff _).1 (htext ▸ (hx.mem_iff _).2 rfl)
  cases x
  cases y
  exact ⟨by simp_all, hrest⟩

end Lexeme

theorem flatMap_lexemes (k : CharClasses) (t : List Char) :
    (lexemes k t).flatMap Lexeme.text = t := by
  fun_induction lexemes k t with
  | case1 => rfl
  | case2 c t ih => rw [List.flatMap_cons, ih, Lexeme.first_append]

theorem isLongest_lexemes {t : List Char} {xs zs : List Lexeme} {x : Lexeme}
    (h : lexemes k t = xs ++ x :: zs) : x.IsLongest k (zs.flatMap Lexeme.text) := by
  induction xs generalizing t with
  | nil =>
    cases t with
    | nil => simp at h
    | cons c t =>
      rw [lexemes_cons] at h
      obtain ⟨rfl, rfl⟩ := List.cons.inj h
      rw [flatMap_lexemes]
      exact Lexeme.isLongest_first k c t
  | cons y xs ih =>
    cases t with
    | nil => simp at h
    | cons c t =>
      rw [lexemes_cons] at h
      exact ih (List.cons.inj h).2

/-- The lexemes of a text are the one list of lexemes whose texts make up the text and of which each
is the longest that begins what is left. -/
theorem eq_lexemes_iff (k : CharClasses) (t : List Char) (xs : List Lexeme) :
    xs = lexemes k t ↔ xs.flatMap Lexeme.text = t ∧
      ∀ ys x zs, xs = ys ++ x :: zs → x.IsLongest k (zs.flatMap Lexeme.text) := by
  constructor
  · rintro rfl
    exact ⟨flatMap_lexemes k t, fun _ _ _ => isLongest_lexemes⟩
  rintro ⟨htext, hlong⟩
  induction xs generalizing t with
  | nil =>
    subst htext
    exact (lexemes_nil k).symm
  | cons x xs ih =>
    rw [List.flatMap_cons] at htext
    have hx := hlong [] x xs rfl
    cases t with
    | nil => exact absurd (List.append_eq_nil_iff.1 htext).1 hx.nonempty
    | cons c t =>
      rw [← Lexeme.first_append k c t] at htext
      obtain ⟨rfl, hrest⟩ := hx.unique (Lexeme.isLongest_first k c t) htext
      rw [lexemes_cons, ← ih _ hrest fun ys y zs h => hlong (_ :: ys) y zs (by rw [h]; rfl)]

end UnitCalculator
