import UnitCalculator.Proofs.Grammar.Completeness
import UnitCalculator.Proofs.Grammar.Uniqueness

/-!
Whatever is read has a derivation, of the tokens that have been taken and with the term that was
given. With the converse, a line is accepted exactly if the grammar derives it.
-/

set_option autoImplicit false

namespace UnitCalculator.Grammar

open Reader

variable {α β : Type} {names : Names} {x r : List Token}

/-- The reader leaves `r` of `x` and gives `a`. -/
def Takes (p : Reader α) (x : List Token) (a : α) (r : List Token) : Prop :=
  ∃ k k', result p ⟨k, x⟩ = .ok (a, ⟨k', r⟩)

namespace Takes

theorem pure {a b : α} (h : Takes (Pure.pure a) x b r) : b = a ∧ r = x := by
  obtain ⟨k, k', h⟩ := h
  cases h
  exact ⟨rfl, rfl⟩

theorem fail {e : ParseError} {a : α} : ¬Takes (fail e) x a r := by
  intro ⟨k, k', h⟩
  cases h

theorem bind {p : Reader α} {f : α → Reader β} {b : β} (h : Takes (p >>= f) x b r) :
    ∃ a y, Takes p x a y ∧ Takes (f a) y b r := by
  obtain ⟨k, k', h⟩ := h
  rw [result_bind] at h
  cases hp : result p ⟨k, x⟩ with
  | error e =>
    rw [hp] at h
    cases h
  | ok q =>
    obtain ⟨a, i, y⟩ := q
    rw [hp] at h
    exact ⟨a, y, ⟨k, i, hp⟩, ⟨i, k', h⟩⟩

theorem visit {v : Rule} {a : Unit} (h : Takes (visit v) x a r) : r = x := by
  obtain ⟨k, k', h⟩ := h
  cases h
  rfl

theorem take {f : Token → Option α} {a : Option α} (h : Takes (take? f) x a r) :
    (∃ t b, a = some b ∧ f t = some b ∧ x = t :: r) ∨ a = none ∧ r = x := by
  obtain ⟨k, k', h⟩ := h
  rw [result_take?] at h
  cases x with
  | nil =>
    cases h
    exact .inr ⟨rfl, rfl⟩
  | cons t x =>
    cases hf : f t with
    | none =>
      simp only [hf] at h
      cases h
      exact .inr ⟨rfl, rfl⟩
    | some b =>
      simp only [hf] at h
      cases h
      exact .inl ⟨t, b, rfl, hf, rfl⟩

theorem operator {f : Operator → Bool} {a : Option Operator}
    (h : Takes (operator? f) x a r) :
    (∃ o, a = some o ∧ f o = true ∧ x = .op o :: r) ∨ a = none ∧ r = x := by
  obtain ⟨t, o, rfl, ht, rfl⟩ | h := h.take
  · cases t with
    | op p =>
      simp only [Option.ite_none_right_eq_some, Option.some.injEq] at ht
      obtain ⟨hp, rfl⟩ := ht
      exact .inl ⟨p, rfl, hp, rfl⟩
    | _ => cases ht
  · exact .inr h

theorem accepts {o : Operator} {b : Bool} (h : Takes (accepts o) x b r) :
    b = true ∧ x = .op o :: r ∨ b = false ∧ r = x := by
  obtain ⟨a, y, ha, h⟩ := h.bind
  obtain ⟨rfl, rfl⟩ := h.pure
  obtain ⟨p, rfl, hp, rfl⟩ | ⟨rfl, rfl⟩ := ha.operator
  · obtain rfl : p = o := by simpa using hp
    exact .inl ⟨rfl, rfl⟩
  · exact .inr ⟨rfl, rfl⟩

theorem expect {o : Operator} {e : Expected} {a : Unit} (h : Takes (expect o e) x a r) :
    x = .op o :: r := by
  obtain ⟨k, k', h⟩ := h
  rw [result_expect] at h
  split at h
  · next ho =>
    cases x with
    | nil => cases ho
    | cons t x =>
      cases ho
      cases h
      rfl
  · cases h

theorem peek {a : Option Token} (h : Takes peek x a r) : a = x.head? ∧ r = x := by
  obtain ⟨k, k', h⟩ := h
  cases h
  exact ⟨rfl, rfl⟩

theorem skip {t : Token} {a : Unit} (h : Takes (skip 1) (t :: x) a r) : r = x := by
  obtain ⟨k, k', h⟩ := h
  cases h
  rfl

theorem remaining {n : Nat} (h : Takes remaining x n r) : r = x := by
  obtain ⟨k, k', h⟩ := h
  cases h
  rfl

theorem beforeClose_eq_some {x ts r : List Token} (h : beforeClose x = some (ts, r)) :
    ∃ us, Token.op .closeParen ∉ us ∧ us ++ .op .closeParen :: r = x ∧
      us.filter (· ≠ .op .comma) = ts := by
  induction x generalizing ts with
  | nil => cases h
  | cons t x ih =>
    rw [beforeClose] at h
    split at h
    · next ht =>
      cases h
      exact ⟨[], List.not_mem_nil, by rw [ht]; rfl, rfl⟩
    · next ht =>
      obtain ⟨⟨vs, y⟩, hv, hp⟩ := Option.map_eq_some_iff.1 h
      obtain ⟨rfl, rfl⟩ := Prod.mk.inj hp
      obtain ⟨us, hu, rfl, rfl⟩ := ih hv
      refine ⟨t :: us, by simp [Ne.symm ht, hu], rfl, ?_⟩
      by_cases hc : t = .op .comma
      · simp [hc]
      · simp [hc]

theorem commandArguments {c : String} {ts : List Token} (h : Takes (commandArguments c) x ts r) :
    ∃ us, Token.op .closeParen ∉ us ∧ .op .openParen :: (us ++ .op .closeParen :: r) = x ∧
      us.filter (· ≠ .op .comma) = ts := by
  obtain ⟨_, y, he, h₁⟩ := h.bind
  obtain rfl := he.expect
  obtain ⟨k, k', h₂⟩ := h₁
  cases hb : beforeClose y with
  | none => simp [result, hb] at h₂
  | some p =>
    obtain ⟨vs, z⟩ := p
    simp only [result, hb, Except.ok.injEq, Prod.mk.injEq, Cursor.mk.injEq] at h₂
    obtain ⟨rfl, -, rfl⟩ := h₂
    obtain ⟨us, hu, rfl, rfl⟩ := beforeClose_eq_some hb
    exact ⟨us, hu, rfl, rfl⟩

end Takes

theorem suffix?_eq_some {t : Token} {s : Suffix} (h : suffix? names t = some s) :
    ∃ p, t = .ident p ∧ ((∃ f, s = .scaled f ∧ prefixName? p = some f) ∨
      ∃ f, s = .imaginary f ∧ prefixedImaginary? p = some f ∧ names.isConstant p = false) := by
  cases t with
  | ident p =>
    refine ⟨p, rfl, ?_⟩
    simp only [suffix?] at h
    split at h
    · next f hf =>
      cases h
      exact .inl ⟨f, rfl, hf⟩
    · split at h
      · next f hf =>
        split at h
        · cases h
        · next hc =>
          cases h
          exact .inr ⟨f, rfl, hf, by simpa using hc⟩
      · cases h
  | _ => cases h

theorem imaginary?_eq_some {t : Token} {u : Unit} (h : imaginary? t = some u) :
    ∃ i, t = .ident i ∧ isImaginaryName i = true := by
  cases t with
  | ident i =>
    simp only [imaginary?] at h
    split at h
    · next hi => exact ⟨i, rfl, hi⟩
    · cases h
  | _ => cases h

/-- A phrase that begins `x` and leaves `r`, and that goes in fewer levels than `n`. -/
def Found (names : Names) (n : Nat) (s : Symbol) (x r : List Token) (m : Meaning s) : Prop :=
  ∃ d : Derivation names s, d.yield ++ r = x ∧ d.tree = m ∧ d.levels < n

def FoundAfter (names : Names) (n : Nat) (s : Symbol) (x r : List Token) (f : Meaning s → Term)
    (t : Term) : Prop :=
  ∃ d : Derivation names s, d.yield ++ r = x ∧ f d.tree = t ∧ d.levels < n

/-- What is read with `n` levels left has a derivation. Sums and units are phrases that take a level
themselves. -/
structure Sound (names : Names) (n : Nat) (inner : Inner) : Prop where
  sum {x r t} : Takes (inner .sum) x t r → Found names (n + 1) .expr x r t
  sumAfter {lhs x r t} : Takes (inner (.sumAfter lhs)) x t r →
    FoundAfter names n .additions x r (fun f => f lhs) t
  product {x r t} : Takes (inner .product) x t r → Found names n .product x r t
  productAfter {lhs x r t} : Takes (inner (.productAfter lhs)) x t r →
    FoundAfter names n .factors x r (fun f => f lhs) t
  unary {x r t} : Takes (inner .unary) x t r → Found names n .unary x r t
  unit {x r u} : Takes (inner .unit) x u r → Found names (n + 1) .unit x r u
  unitTerm {x r u} : Takes (inner .unitTerm) x u r → Found names n .unitTerm x r u
  unitAfter {lhs x r u} : Takes (inner (.unitAfter lhs)) x u r →
    FoundAfter names n .unitFactors x r (fun f => f lhs) u

theorem max_succ_lt {a b n : Nat} (ha : a < n) (hb : b < n) : max a b + 1 < n + 1 :=
  Nat.succ_lt_succ (Nat.max_lt.2 ⟨ha, hb⟩)

section

variable {n : Nat} {inner : Inner} (h : Sound names n inner)

include h

/-! Units -/

theorem sound_unit {u : Term} (hu : Takes (unit inner) x u r) :
    Found names (n + 1) .unit x r u := by
  obtain ⟨_, _, hv, h₁⟩ := hu.bind
  obtain rfl := hv.visit
  exact h.unit h₁

theorem sound_unitAtom {u : Term} (hu : Takes (unitAtom inner) x u r) :
    Found names (n + 1) .unitAtom x r u := by
  obtain ⟨a, y, ha, h₁⟩ := hu.bind
  obtain ⟨t, v, rfl, ht, rfl⟩ | ⟨rfl, rfl⟩ := ha.take
  · obtain ⟨rfl, rfl⟩ := h₁.pure
    cases t with
    | ident s =>
      cases ht
      exact ⟨.symbol s, rfl, rfl, Nat.succ_pos _⟩
    | int n =>
      simp only [symbol?, Option.ite_none_right_eq_some, Option.some.injEq] at ht
      obtain ⟨rfl, rfl⟩ := ht
      exact ⟨.one, rfl, rfl, Nat.succ_pos _⟩
    | _ => cases ht
  · obtain ⟨b, z, hb, h₂⟩ := h₁.bind
    obtain ⟨rfl, rfl⟩ | ⟨rfl, rfl⟩ := hb.accepts
    · obtain ⟨v, y, hv, h₃⟩ := h₂.bind
      obtain ⟨_, w, hw, h₄⟩ := h₃.bind
      obtain ⟨rfl, rfl⟩ := h₄.pure
      obtain ⟨d, rfl, rfl, ld⟩ := sound_unit h hv
      obtain rfl := hw.expect
      exact ⟨.unitParenthesized d, by simp [Derivation.yield], rfl, ld⟩
    · obtain ⟨a, y, ha, h₃⟩ := h₂.bind
      cases a with
      | none => exact absurd h₃ Takes.fail
      | some t => exact absurd h₃ Takes.fail

theorem sound_unitTerm {u : Term} (hu : Takes (unitTerm inner) x u r) :
    Found names (n + 1) .unitTerm x r u := by
  obtain ⟨v, y, hv, h₁⟩ := hu.bind
  obtain ⟨d, rfl, rfl, ld⟩ := sound_unitAtom h hv
  obtain ⟨b, z, hb, h₂⟩ := h₁.bind
  obtain ⟨rfl, rfl⟩ | ⟨rfl, rfl⟩ := hb.accepts
  · obtain ⟨a, w, ha, h₃⟩ := h₂.bind
    obtain ⟨t, n, rfl, ht, rfl⟩ | ⟨rfl, rfl⟩ := ha.take
    · obtain ⟨rfl, rfl⟩ := h₃.pure
      cases t with
      | int m =>
        cases ht
        exact ⟨.unitRaised d n, by simp [Derivation.yield], rfl, ld⟩
      | _ => cases ht
    · obtain ⟨t, y, _, h₄⟩ := h₃.bind
      exact absurd h₄ Takes.fail
  · obtain ⟨rfl, rfl⟩ := h₂.pure
    exact ⟨.unitPlain d, rfl, rfl, ld⟩

theorem sound_unitAfter {lhs u : Term} (hu : Takes (unitAfter inner lhs) x u r) :
    FoundAfter names (n + 1) .unitFactors x r (fun f => f lhs) u := by
  obtain ⟨a, y, ha, h₁⟩ := hu.bind
  obtain ⟨o, rfl, ho, rfl⟩ | ⟨rfl, rfl⟩ := ha.operator
  · obtain ⟨v, z, hv, h₂⟩ := h₁.bind
    obtain ⟨d, rfl, rfl, ld⟩ := h.unitTerm hv
    obtain ⟨f, rfl, rfl, lf⟩ := h.unitAfter h₂
    exact ⟨.unitFactor o ho d f, by simp [Derivation.yield], rfl, max_succ_lt ld lf⟩
  · obtain ⟨rfl, rfl⟩ := h₁.pure
    exact ⟨.noUnitFactor, rfl, rfl, Nat.succ_pos _⟩

theorem sound_bracketedUnit {u : Term} (hu : Takes (bracketedUnit inner) x u r) :
    Found names (n + 1) .brackets x r u := by
  obtain ⟨b, y, hb, h₁⟩ := hu.bind
  obtain ⟨rfl, rfl⟩ | ⟨rfl, rfl⟩ := hb.accepts
  · obtain ⟨v, z, hv, h₂⟩ := h₁.bind
    obtain ⟨_, w, hw, h₃⟩ := h₂.bind
    obtain ⟨rfl, rfl⟩ := h₃.pure
    obtain ⟨d, rfl, rfl, ld⟩ := sound_unit h hv
    obtain rfl := hw.expect
    exact ⟨.bracketed d, by simp [Derivation.yield], rfl, ld⟩
  · obtain ⟨rfl, rfl⟩ := h₁.pure
    exact ⟨.noUnit, rfl, rfl, Nat.succ_pos _⟩

/-! Numbers and names -/

theorem sound_numberEnd {v : Number} {t : Term}
    (ht : Takes (do return Term.number v (← bracketedUnit inner)) x t r) :
    ∃ b : Derivation names .brackets,
      b.yield ++ r = x ∧ t = .number v b.tree ∧ b.levels < n + 1 := by
  obtain ⟨u, y, hu, h₁⟩ := ht.bind
  obtain ⟨rfl, rfl⟩ := h₁.pure
  obtain ⟨b, rfl, rfl, lb⟩ := sound_bracketedUnit h hu
  exact ⟨b, rfl, rfl, lb⟩

theorem sound_number {t : Token} {a : Number} (ht : literal? t = some a) {u : Term}
    (hu : Takes (number names inner a) (t :: x) u r) :
    Found names (n + 1) .primary (t :: x) r u := by
  obtain ⟨_, _, hv, h₁⟩ := hu.bind
  obtain rfl := hv.visit
  obtain ⟨_, _, hs, h₂⟩ := h₁.bind
  obtain rfl := hs.skip
  obtain ⟨s, y, hs, h₃⟩ := h₂.bind
  obtain ⟨w, s, rfl, hf, rfl⟩ | ⟨rfl, rfl⟩ := hs.take
  · obtain ⟨p, rfl, ⟨f, rfl, hp⟩ | ⟨f, rfl, hp, hc⟩⟩ := suffix?_eq_some hf
    · obtain ⟨m, z, hm, h₄⟩ := h₃.bind
      obtain ⟨b, rfl, rfl, lb⟩ := sound_numberEnd h h₄
      obtain ⟨w, _, rfl, hw, rfl⟩ | ⟨rfl, rfl⟩ := hm.take
      · obtain ⟨i, rfl, hi⟩ := imaginary?_eq_some hw
        exact ⟨.number t a ht (.scaledImaginary p i f hp hi) b, rfl, rfl, lb⟩
      · exact ⟨.number t a ht (.scaled p f hp) b, rfl, rfl, lb⟩
    · obtain ⟨m, z, hm, h₄⟩ := h₃.bind
      obtain ⟨rfl, rfl⟩ := hm.pure
      obtain ⟨b, rfl, rfl, lb⟩ := sound_numberEnd h h₄
      exact ⟨.number t a ht (.glued p f hp hc) b, rfl, rfl, lb⟩
  · obtain ⟨m, z, hm, h₄⟩ := h₃.bind
    obtain ⟨b, rfl, rfl, lb⟩ := sound_numberEnd h h₄
    obtain ⟨w, _, rfl, hw, rfl⟩ | ⟨rfl, rfl⟩ := hm.take
    · obtain ⟨i, rfl, hi⟩ := imaginary?_eq_some hw
      exact ⟨.number t a ht (.imaginary i hi) b, rfl, rfl, lb⟩
    · exact ⟨.number t a ht .none b, rfl, rfl, lb⟩

theorem sound_expr {t : Term} (ht : Takes (expr inner) x t r) :
    Found names (n + 1) .expr x r t := by
  obtain ⟨_, _, hv, h₁⟩ := ht.bind
  obtain rfl := hv.visit
  exact h.sum h₁

theorem sound_moreArguments {k : Nat} {ts : List Term}
    (ht : Takes (moreArguments inner k) x ts r) : Found names (n + 1) .moreArguments x r ts := by
  induction k generalizing x ts r with
  | zero =>
    obtain ⟨rfl, rfl⟩ := ht.pure
    exact ⟨.lastArgument, rfl, rfl, Nat.succ_pos _⟩
  | succ k ih =>
    obtain ⟨b, y, hb, h₁⟩ := ht.bind
    obtain ⟨rfl, rfl⟩ | ⟨rfl, rfl⟩ := hb.accepts
    · obtain ⟨t, z, he, h₂⟩ := h₁.bind
      obtain ⟨us, w, hu, h₃⟩ := h₂.bind
      obtain ⟨rfl, rfl⟩ := h₃.pure
      obtain ⟨d, rfl, rfl, ld⟩ := sound_expr h he
      obtain ⟨m, rfl, rfl, lm⟩ := ih hu
      exact ⟨.nextArgument d m, by simp [Derivation.yield], rfl, Nat.max_lt.2 ⟨ld, lm⟩⟩
    · obtain ⟨rfl, rfl⟩ := h₁.pure
      exact ⟨.lastArgument, rfl, rfl, Nat.succ_pos _⟩

theorem sound_arguments {f : String} {ts : List Term} (ht : Takes (arguments inner f) x ts r) :
    Found names (n + 1) .arguments x r ts := by
  obtain ⟨_, y, he, h₁⟩ := ht.bind
  obtain rfl := he.expect
  obtain ⟨b, z, hb, h₂⟩ := h₁.bind
  obtain ⟨rfl, rfl⟩ | ⟨rfl, rfl⟩ := hb.accepts
  · obtain ⟨rfl, rfl⟩ := h₂.pure
    exact ⟨.noArguments, rfl, rfl, Nat.succ_pos _⟩
  · obtain ⟨t, y, hd, h₃⟩ := h₂.bind
    obtain ⟨n, w, hn, h₄⟩ := h₃.bind
    obtain ⟨us, z, hu, h₅⟩ := h₄.bind
    obtain ⟨_, v, hv, h₆⟩ := h₅.bind
    obtain ⟨rfl, rfl⟩ := h₆.pure
    obtain ⟨d, rfl, rfl, ld⟩ := sound_expr h hd
    obtain rfl := hn.remaining
    obtain ⟨m, rfl, rfl, lm⟩ := sound_moreArguments h hu
    obtain rfl := hv.expect
    exact ⟨.someArguments d m, by simp [Derivation.yield], rfl, Nat.max_lt.2 ⟨ld, lm⟩⟩

theorem sound_namedAs {s : String} {t : Term}
    (ht : Takes (namedAs inner s (names.kind s)) x t r) :
    Found names (n + 1) .primary (.ident s :: x) r t := by
  cases hk : names.kind s with
  | constant =>
    rw [hk] at ht
    obtain ⟨rfl, rfl⟩ := ht.pure
    exact ⟨.name s (.inl hk), rfl, rfl, Nat.succ_pos _⟩
  | var =>
    rw [hk] at ht
    obtain ⟨rfl, rfl⟩ := ht.pure
    exact ⟨.name s (.inr hk), rfl, rfl, Nat.succ_pos _⟩
  | function =>
    rw [hk] at ht
    obtain ⟨ts, y, ha, h₁⟩ := ht.bind
    obtain ⟨rfl, rfl⟩ := h₁.pure
    obtain ⟨d, rfl, rfl, ld⟩ := sound_arguments h ha
    exact ⟨.call s hk d, rfl, rfl, ld⟩
  | command =>
    rw [hk] at ht
    obtain ⟨ts, y, ha, h₁⟩ := ht.bind
    obtain ⟨rfl, rfl⟩ := h₁.pure
    obtain ⟨us, hu, rfl, rfl⟩ := ha.commandArguments
    exact ⟨.command s hk us hu, by simp [Derivation.yield], rfl, Nat.succ_pos _⟩

theorem sound_primary {t : Term} (ht : Takes (primary names inner) x t r) :
    Found names (n + 1) .primary x r t := by
  obtain ⟨_, _, hv, h₁⟩ := ht.bind
  obtain rfl := hv.visit
  obtain ⟨a, y, ha, h₂⟩ := h₁.bind
  obtain ⟨rfl, rfl⟩ := ha.peek
  cases y with
  | nil => exact absurd h₂ Takes.fail
  | cons u y =>
    cases u with
    | int n => exact sound_number h rfl h₂
    | float f => exact sound_number h rfl h₂
    | ident s =>
      have h₃ : Takes (named names inner s) (.ident s :: y) t r := h₂
      rw [named_eq] at h₃
      obtain ⟨_, _, hs, h₄⟩ := h₃.bind
      obtain rfl := hs.skip
      obtain ⟨_, _, hv, h₅⟩ := h₄.bind
      obtain rfl := hv.visit
      exact sound_namedAs h h₅
    | op o =>
      cases o with
      | openParen =>
        obtain ⟨_, _, hs, h₃⟩ := h₂.bind
        obtain rfl := hs.skip
        obtain ⟨v, z, hv, h₄⟩ := h₃.bind
        obtain ⟨_, w, hw, h₅⟩ := h₄.bind
        obtain ⟨rfl, rfl⟩ := h₅.pure
        obtain ⟨d, rfl, rfl, ld⟩ := sound_expr h hv
        obtain rfl := hw.expect
        exact ⟨.parenthesized d, by simp [Derivation.yield], rfl, ld⟩
      | _ =>
        obtain ⟨k, k', h₃⟩ := h₂
        cases h₃

/-! Signs, powers and chains -/

theorem sound_power {t : Term} (ht : Takes (power names inner) x t r) :
    Found names (n + 1) .power x r t := by
  obtain ⟨_, _, hv, h₁⟩ := ht.bind
  obtain rfl := hv.visit
  obtain ⟨v, y, hp, h₂⟩ := h₁.bind
  obtain ⟨p, rfl, rfl, lp⟩ := sound_primary h hp
  obtain ⟨b, z, hb, h₃⟩ := h₂.bind
  obtain ⟨rfl, rfl⟩ | ⟨rfl, rfl⟩ := hb.accepts
  · obtain ⟨w, y, hw, h₄⟩ := h₃.bind
    obtain ⟨rfl, rfl⟩ := h₄.pure
    obtain ⟨u, rfl, rfl, lu⟩ := h.unary hw
    exact ⟨.raised p u, by simp [Derivation.yield], rfl, Nat.max_lt.2 ⟨lp, Nat.succ_lt_succ lu⟩⟩
  · obtain ⟨rfl, rfl⟩ := h₃.pure
    exact ⟨.plain p, rfl, rfl, lp⟩

theorem sound_unary {t : Term} (ht : Takes (unary names inner) x t r) :
    Found names (n + 1) .unary x r t := by
  obtain ⟨_, _, hv, h₁⟩ := ht.bind
  obtain rfl := hv.visit
  obtain ⟨a, y, ha, h₂⟩ := h₁.bind
  obtain ⟨o, rfl, ho, rfl⟩ | ⟨rfl, rfl⟩ := ha.operator
  · obtain ⟨w, y, hw, h₃⟩ := h₂.bind
    obtain ⟨rfl, rfl⟩ := h₃.pure
    obtain ⟨u, rfl, rfl, lu⟩ := h.unary hw
    exact ⟨.signed o ho u, rfl, rfl, Nat.succ_lt_succ lu⟩
  · obtain ⟨p, rfl, rfl, lp⟩ := sound_power h h₂
    exact ⟨.unsigned p, rfl, rfl, lp⟩

theorem sound_productAfter {lhs t : Term} (ht : Takes (productAfter inner lhs) x t r) :
    FoundAfter names (n + 1) .factors x r (fun f => f lhs) t := by
  obtain ⟨a, y, ha, h₁⟩ := ht.bind
  obtain ⟨o, rfl, ho, rfl⟩ | ⟨rfl, rfl⟩ := ha.operator
  · obtain ⟨v, z, hv, h₂⟩ := h₁.bind
    obtain ⟨u, rfl, rfl, lu⟩ := h.unary hv
    obtain ⟨f, rfl, rfl, lf⟩ := h.productAfter h₂
    exact ⟨.factor o ho u f, by simp [Derivation.yield], rfl, max_succ_lt lu lf⟩
  · obtain ⟨rfl, rfl⟩ := h₁.pure
    exact ⟨.noFactor, rfl, rfl, Nat.succ_pos _⟩

theorem sound_product {t : Term} (ht : Takes (product names inner) x t r) :
    Found names (n + 1) .product x r t := by
  obtain ⟨_, _, hv, h₁⟩ := ht.bind
  obtain rfl := hv.visit
  obtain ⟨v, y, hu, h₂⟩ := h₁.bind
  obtain ⟨u, rfl, rfl, lu⟩ := sound_unary h hu
  obtain ⟨f, rfl, rfl, lf⟩ := sound_productAfter h h₂
  exact ⟨.product u f, by simp [Derivation.yield], rfl, Nat.max_lt.2 ⟨lu, lf⟩⟩

theorem sound_sumAfter {lhs t : Term} (ht : Takes (sumAfter inner lhs) x t r) :
    FoundAfter names (n + 1) .additions x r (fun f => f lhs) t := by
  obtain ⟨a, y, ha, h₁⟩ := ht.bind
  obtain ⟨o, rfl, ho, rfl⟩ | ⟨rfl, rfl⟩ := ha.operator
  · obtain ⟨v, z, hv, h₂⟩ := h₁.bind
    obtain ⟨p, rfl, rfl, lp⟩ := h.product hv
    obtain ⟨a, rfl, rfl, la⟩ := h.sumAfter h₂
    exact ⟨.addition o ho p a, by simp [Derivation.yield], rfl, max_succ_lt lp la⟩
  · obtain ⟨rfl, rfl⟩ := h₁.pure
    exact ⟨.noAddition, rfl, rfl, Nat.succ_pos _⟩

theorem Sound.level : Sound names (n + 1) (level names inner) where
  sum ht := by
    obtain ⟨v, y, hp, h₁⟩ := ht.bind
    obtain ⟨p, rfl, rfl, lp⟩ := sound_product h hp
    obtain ⟨a, rfl, rfl, la⟩ := sound_sumAfter h h₁
    exact ⟨.sum p a, by simp [Derivation.yield], rfl, max_succ_lt lp la⟩
  sumAfter := sound_sumAfter h
  product := sound_product h
  productAfter := sound_productAfter h
  unary := sound_unary h
  unit hu := by
    obtain ⟨v, y, ha, h₁⟩ := hu.bind
    obtain ⟨a, rfl, rfl, la⟩ := sound_unitTerm h ha
    obtain ⟨f, rfl, rfl, lf⟩ := sound_unitAfter h h₁
    exact ⟨.unit a f, by simp [Derivation.yield], rfl, max_succ_lt la lf⟩
  unitTerm := sound_unitTerm h
  unitAfter := sound_unitAfter h

theorem sound_assign {t : Term} (ht : Takes (assign inner) x t r) :
    Found names (n + 1) .assign x r t := by
  obtain ⟨_, _, hv, h₁⟩ := ht.bind
  obtain rfl := hv.visit
  obtain ⟨v, y, he, h₂⟩ := h₁.bind
  obtain ⟨l, rfl, rfl, ll⟩ := sound_expr h he
  obtain ⟨b, z, hb, h₃⟩ := h₂.bind
  obtain ⟨rfl, rfl⟩ | ⟨rfl, rfl⟩ := hb.accepts
  · obtain ⟨w, y, hw, h₄⟩ := h₃.bind
    obtain ⟨rfl, rfl⟩ := h₄.pure
    obtain ⟨e, rfl, rfl, le⟩ := sound_expr h hw
    exact ⟨.assignment l e, by simp [Derivation.yield], rfl, Nat.max_lt.2 ⟨ll, le⟩⟩
  · obtain ⟨rfl, rfl⟩ := h₃.pure
    exact ⟨.value l, rfl, rfl, ll⟩

end

theorem sound_within (names : Names) (limit : Int) (n : Nat) :
    Sound names n (within names limit n) := by
  induction n with
  | zero => constructor <;> exact fun h => absurd h Takes.fail
  | succ n ih => exact ih.level

/-- A line is read exactly if it has a derivation that goes in no further than the limit. -/
theorem parse_eq_ok_iff_derivation {limit : Int} {t : Term} :
    parse names limit x = .ok t ↔
      ∃ d : Derivation names .assign, d.yield = x ∧ d.tree = t ∧ d.levels ≤ limit.toNat := by
  constructor
  · intro h
    obtain ⟨k, hk⟩ := parse_eq_ok_iff.1 h
    obtain ⟨d, hd, rfl, ld⟩ := sound_assign (sound_within names limit limit.toNat) ⟨0, k, hk⟩
    exact ⟨d, by simpa using hd, rfl, Nat.lt_succ_iff.1 ld⟩
  · rintro ⟨d, rfl, rfl, hd⟩
    exact parse_of_levels_le d hd

theorem exists_derivation_of_parse {limit : Int} {t : Term} (h : parse names limit x = .ok t) :
    ∃ d : Derivation names .assign, d.yield = x ∧ d.tree = t := by
  obtain ⟨d, hd, ht, -⟩ := parse_eq_ok_iff_derivation.1 h
  exact ⟨d, hd, ht⟩

/-- With more levels than tokens, a line is accepted exactly if the grammar derives it. There is one
derivation, whose term is the result, and every other line is an error. -/
theorem parse_derives (names : Names) {limit : Int} {x : List Token}
    (h : (x.length : Int) < limit) :
    (∀ t, parse names limit x = .ok t ↔
        ∃ d : Derivation names .assign, d.yield = x ∧ d.tree = t) ∧
      (∀ d e : Derivation names .assign, d.yield = x → e.yield = x → d = e) ∧
      ((¬∃ d : Derivation names .assign, d.yield = x) → ∃ e, parse names limit x = .error e) := by
  refine ⟨fun t => ⟨exists_derivation_of_parse, ?_⟩, ?_, ?_⟩
  · intro ⟨d, hd, ht⟩
    subst hd ht
    exact parse_yield d h
  · intro d e hd he
    exact Derivation.yield_injective (hd.trans he.symm)
  · intro hn
    cases hp : parse names limit x with
    | error e => exact ⟨e, rfl⟩
    | ok t =>
      obtain ⟨d, hd, -⟩ := exists_derivation_of_parse hp
      exact absurd ⟨d, hd⟩ hn

theorem parse_negated_power :
    parse ⟨fun _ => false, fun _ => false, fun _ => false⟩ 100
        [.op .minus, .int 2, .op .caret, .op .minus, .int 2] =
      .ok (.signed .minus (.binary .caret (.int 2) (.signed .minus (.int 2)))) := by
  refine ((parse_derives _ (by decide)).1 _).2 ⟨?_, ?_, ?_⟩
  · exact .value (.sum (.product (.signed .minus rfl (.unsigned (.raised
      (.number (.int 2) (.int 2) rfl .none .noUnit)
      (.signed .minus rfl (.unsigned (.plain (.number (.int 2) (.int 2) rfl .none .noUnit)))))))
      .noFactor) .noAddition)
  · rfl
  · rfl

end UnitCalculator.Grammar
