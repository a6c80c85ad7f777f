import UnitCalculator.Proofs.Arithmetic.Range
import UnitCalculator.Units.Canonical

/-!
Terms that can be written out: their levels fit on the stack, and their integers are short.
-/

set_option autoImplicit false

namespace UnitCalculator

/-! Integers -/

theorem eq_tooLong_of_intObstacle {n : Int} {o : Obstacle} (h : intObstacle n = some o) :
    o = .tooLong := by
  unfold intObstacle at h
  split at h
  · exact (Option.some.inj h).symm
  · cases h

theorem intObstacle_of_inRange {n : Int} (h : Whole.InRange n) : intObstacle n = none := by
  obtain ⟨hl, hg⟩ := Whole.inRange_iff.1 h
  have hlength : (Nat.toDigits 10 n.natAbs).length ≤ 39 :=
    (Nat.length_toDigits_le_iff (by decide) (by decide)).2 (by omega)
  exact if_neg (Nat.not_lt.2 (hlength.trans (by decide)))

theorem Token.obstacle_eq_some {t : Token} {o : Obstacle} (h : t.obstacle = some o) :
    o = .tooLong := by
  cases t with
  | int n => exact eq_tooLong_of_intObstacle h
  | _ => cases h

theorem Fraction.obstacle_eq_none_iff {f : Fraction} : f.obstacle = none ↔
    ∀ p ∈ f.numerator ++ f.denominator, intObstacle p.2 = none := List.findSome?_eq_none_iff

/-! Terms -/

namespace Term

inductive Short : Term → Prop where
  | absent : Short .absent
  | empty : Short .empty
  | number {a : Number} {u : Term} : a.obstacle = none → Short u → Short (.number a u)
  | signed {o : Operator} {t : Term} : Short t → Short (.signed o t)
  | binary {o : Operator} {l r : Term} : Short l → Short r → Short (.binary o l r)
  | name (s : String) : Short (.name s)
  | call {s : String} {ts : List Term} : (∀ t ∈ ts, Short t) → Short (.call s ts)
  | command {s : String} {ts : List Token} :
      (∀ t ∈ ts, t.obstacle = none) → Short (.command s ts)
  | bracketed {t : Term} : Short t → Short (.bracketed t)
  | fraction {f : Fraction} : f.obstacle = none → Short (.fraction f)

theorem height_le_heights {t : Term} {ts : List Term} (h : t ∈ ts) :
    t.height ≤ height.heights ts := by
  induction ts with
  | nil => exact absurd h List.not_mem_nil
  | cons s ts ih =>
    rw [height.heights]
    obtain rfl | h := List.mem_cons.1 h
    · exact Nat.le_max_left _ _
    · exact (ih h).trans (Nat.le_max_right _ _)

theorem heights_le {ts : List Term} {n : Nat} (h : ∀ t ∈ ts, t.height ≤ n) :
    height.heights ts ≤ n := by
  induction ts with
  | nil => exact Nat.zero_le n
  | cons s ts ih =>
    obtain ⟨hs, hts⟩ := List.forall_mem_cons.1 h
    exact Nat.max_le.2 ⟨hs, ih hts⟩

theorem height_pos (t : Term) : 0 < t.height := by
  cases t <;> simp only [height] <;> omega

/-- A term can be written exactly if the levels are enough for it and its integers are short. -/
theorem obstacle_eq_none_iff {t : Term} {n : Nat} :
    t.obstacle n = none ↔ t.height ≤ n ∧ t.Short := by
  induction n generalizing t with
  | zero =>
    have hpos := t.height_pos
    exact ⟨nofun, fun h => by omega⟩
  | succ n ih =>
    cases t with
    | absent => exact ⟨fun _ => ⟨Nat.le_add_left 1 n, .absent⟩, fun _ => rfl⟩
    | empty => exact ⟨fun _ => ⟨Nat.le_add_left 1 n, .empty⟩, fun _ => rfl⟩
    | name s => exact ⟨fun _ => ⟨Nat.le_add_left 1 n, .name s⟩, fun _ => rfl⟩
    | fraction f => exact ⟨fun h => ⟨Nat.le_add_left 1 n, .fraction h⟩, fun | ⟨_, .fraction h⟩ => h⟩
    | command s ts =>
      rw [obstacle, List.findSome?_eq_none_iff]
      exact ⟨fun h => ⟨Nat.le_add_left 1 n, .command h⟩, fun | ⟨_, .command h⟩ => h⟩
    | number a u =>
      rw [obstacle, Option.or_eq_none_iff, ih, height]
      constructor
      · rintro ⟨ha, hh, hu⟩
        exact ⟨by omega, .number ha hu⟩
      · rintro ⟨hh, ht⟩
        cases ht with
        | number ha hu => exact ⟨ha, by omega, hu⟩
    | signed o t =>
      rw [obstacle, ih, height]
      constructor
      · rintro ⟨hh, ht⟩
        exact ⟨by omega, .signed ht⟩
      · rintro ⟨hh, ht⟩
        cases ht with
        | signed ht => exact ⟨by omega, ht⟩
    | bracketed t =>
      rw [obstacle, ih, height]
      constructor
      · rintro ⟨hh, ht⟩
        exact ⟨by omega, .bracketed ht⟩
      · rintro ⟨hh, ht⟩
        cases ht with
        | bracketed ht => exact ⟨by omega, ht⟩
    | binary o l r =>
      rw [obstacle, Option.or_eq_none_iff, ih, ih, height]
      constructor
      · rintro ⟨⟨hhl, hl⟩, hhr, hr⟩
        exact ⟨by omega, .binary hl hr⟩
      · rintro ⟨hh, ht⟩
        cases ht with
        | binary hl hr => exact ⟨⟨by omega, hl⟩, by omega, hr⟩
    | call s ts =>
      simp only [obstacle, List.findSome?_eq_none_iff, ih, height]
      constructor
      · intro h
        have hts := heights_le fun t ht => (h t ht).1
        exact ⟨by omega, .call fun t ht => (h t ht).2⟩
      · rintro ⟨hh, hs⟩ t ht
        have ht' := height_le_heights ht
        cases hs with
        | call hs => exact ⟨by omega, hs t ht⟩

/-- Only levels keep a term with short integers from being written. -/
theorem Short.eq_tooDeep {t : Term} (h : t.Short) {n : Nat} {o : Obstacle}
    (ho : t.obstacle n = some o) : o = .tooDeep := by
  induction n generalizing t with
  | zero =>
    cases ho
    rfl
  | succ n ih =>
    cases h with
    | absent | empty | name s => cases ho
    | fraction hf =>
      rw [obstacle, hf] at ho
      cases ho
    | command hts =>
      rw [obstacle, List.findSome?_eq_none_iff.2 hts] at ho
      cases ho
    | number ha hu =>
      rw [obstacle, ha, Option.none_or] at ho
      exact ih hu ho
    | signed ht | bracketed ht => exact ih ht ho
    | binary hl hr =>
      obtain ho | ⟨-, ho⟩ := Option.or_eq_some_iff.1 ho
      · exact ih hl ho
      · exact ih hr ho
    | call hts =>
      obtain ⟨t, ht, ho⟩ := List.exists_of_findSome?_eq_some ho
      exact ih (hts t ht) ho

/-- Where the levels are enough, only an integer keeps a term from being written. -/
theorem obstacle_eq_tooLong {t : Term} {n : Nat} (h : t.height ≤ n) {o : Obstacle}
    (ho : t.obstacle n = some o) : o = .tooLong := by
  induction n generalizing t with
  | zero =>
    have hpos := t.height_pos
    omega
  | succ n ih =>
    cases t with
    | absent | empty | name s => cases ho
    | fraction f =>
      obtain ⟨p, -, hp⟩ := List.exists_of_findSome?_eq_some ho
      exact eq_tooLong_of_intObstacle hp
    | command s ts =>
      obtain ⟨u, -, hu⟩ := List.exists_of_findSome?_eq_some ho
      exact Token.obstacle_eq_some hu
    | number a u =>
      have hh : (Term.number a u).height = 1 + u.height := rfl
      obtain ha | ⟨-, hu⟩ := Option.or_eq_some_iff.1 ho
      · cases a with
        | int m => exact eq_tooLong_of_intObstacle ha
        | real x | complex z => cases ha
      · exact ih (by omega) hu
    | signed op t =>
      have hh : (Term.signed op t).height = 1 + t.height := rfl
      exact ih (by omega) ho
    | bracketed t =>
      have hh : t.bracketed.height = 1 + t.height := rfl
      exact ih (by omega) ho
    | binary op l r =>
      have hh : (Term.binary op l r).height = 1 + max l.height r.height := rfl
      obtain hl | ⟨-, hr⟩ := Option.or_eq_some_iff.1 ho
      · exact ih (by omega) hl
      · exact ih (by omega) hr
    | call s ts =>
      have hh : (Term.call s ts).height = 1 + height.heights ts := rfl
      obtain ⟨u, hu, ho⟩ := List.exists_of_findSome?_eq_some ho
      have hle := height_le_heights hu
      exact ih (by omega) ho

end Term

theorem Quantity.height_toTerm (q : Quantity) : q.toTerm.height = 2 := by
  obtain ⟨a, _ | f⟩ := q
  · rfl
  · rfl

theorem Quantity.short_toTerm_iff {q : Quantity} :
    q.toTerm.Short ↔ q.value.obstacle = none ∧ unitObstacle q.unit = none := by
  obtain ⟨a, _ | f⟩ := q
  · exact ⟨fun | .number ha _ => ⟨ha, rfl⟩, fun h => .number h.1 .absent⟩
  · exact ⟨fun | .number ha (.fraction hf) => ⟨ha, hf⟩, fun h => .number h.1 (.fraction h.2)⟩

end UnitCalculator
