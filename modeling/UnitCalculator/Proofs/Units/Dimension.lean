import UnitCalculator.Proofs.Units.Counting
import UnitCalculator.Units.Canonical

/-!
The dimension of a unit: how often each atomic symbol counts in it. Units as they are written and
canonical units have dimensions; a canonical unit is the one way to write down the entries of its
dimension.
-/

set_option autoImplicit false

namespace UnitCalculator

/-- Counts of symbols: a vector of the free abelian group on them. -/
abbrev Dimension := String → Int

namespace Units

def base (s : String) : String := (compound? s).elim s (·.base)

/-- Where the table leads to in the end. No chain is longer than the table. -/
def atom (s : String) : String := Nat.repeat base table.length s

theorem base_of_atomic {s : String} (h : compound? s = none) : base s = s := by
  simp [base, h]

theorem repeat_base_of_atomic {s : String} (h : compound? s = none) (n : Nat) :
    Nat.repeat base n s = s := by
  induction n with
  | zero => rfl
  | succ n ih => rw [Nat.repeat, ih, base_of_atomic h]

theorem repeat_base_succ (n : Nat) (s : String) :
    Nat.repeat base (n + 1) s = Nat.repeat base n (base s) := by
  induction n with
  | zero => rfl
  | succ n ih => rw [Nat.repeat, ih, Nat.repeat]

theorem atom_of_atomic {s : String} (h : compound? s = none) : atom s = s :=
  repeat_base_of_atomic h _

theorem mem_table_of_compound? {s : String} {c : Compound} (h : compound? s = some c) :
    c ∈ table ∧ c.symbol = s :=
  ⟨List.mem_of_find?_eq_some h, by simpa using List.find?_some h⟩

def longestChain : Nat := 3

theorem compound?_repeat_base (s : String) :
    compound? (Nat.repeat base longestChain s) = none := by
  cases h : compound? s with
  | none => rwa [repeat_base_of_atomic h]
  | some c =>
    obtain ⟨hc, rfl⟩ := mem_table_of_compound? h
    have : ∀ c ∈ table, (compound? (Nat.repeat base longestChain c.symbol)).isNone := by decide
    exact Option.isNone_iff_eq_none.1 (this c hc)

theorem atom_base (s : String) : atom (base s) = atom s := by
  cases h : compound? s with
  | none => rw [base_of_atomic h]
  | some c =>
    obtain ⟨hc, rfl⟩ := mem_table_of_compound? h
    have : ∀ c ∈ table, atom (base c.symbol) = atom c.symbol := by decide
    exact this c hc

theorem base_ne_dimensionless {s : String} (h : s ≠ dimensionless) : base s ≠ dimensionless := by
  cases hc : compound? s with
  | none => rwa [base_of_atomic hc]
  | some c =>
    obtain ⟨hm, rfl⟩ := mem_table_of_compound? hc
    have : ∀ c ∈ table, base c.symbol ≠ dimensionless := by decide
    exact this c hm

theorem repeat_base_ne_dimensionless {s : String} (h : s ≠ dimensionless) (n : Nat) :
    Nat.repeat base n s ≠ dimensionless := by
  induction n with
  | zero => exact h
  | succ n ih => exact base_ne_dimensionless ih

theorem atom_ne_dimensionless {s : String} (h : s ≠ dimensionless) : atom s ≠ dimensionless :=
  repeat_base_ne_dimensionless h _

/-! Units as they are written -/

/-- The units that can be written in brackets. No identifier is the number one. -/
inductive Written : Term → Prop where
  | symbol {s : String} : s ≠ dimensionless → Written (.name s)
  | one : Written (.int 1)
  | times {u v : Term} : Written u → Written v → Written (.binary .times u v)
  | slash {u v : Term} : Written u → Written v → Written (.binary .slash u v)
  | power {u : Term} {n : Int} : 0 ≤ n → Written u → Written (.binary .caret u (.int n))

def single (s : String) : Dimension := fun t => if t = s then 1 else 0

/-- A symbol counts as the atomic one that it leads to, the number one counts nothing. -/
def dimension : Term → Dimension
  | .name s => single (atom s)
  | .binary .times u v => fun s => dimension u s + dimension v s
  | .binary .slash u v => fun s => dimension u s - dimension v s
  | .binary .caret u (.number (.int n) _) => fun s => n * dimension u s
  | _ => fun _ => 0

/-- `t` stands in `u` below exponents other than zero; `k` is their product. -/
inductive Under : Int → Term → Term → Prop where
  | here {t : Term} : Under 1 t t
  | left {k : Int} {t u v : Term} {op : Operator} :
      op ≠ .caret → Under k t u → Under k t (.binary op u v)
  | right {k : Int} {t u v : Term} {op : Operator} :
      op ≠ .caret → Under k t v → Under k t (.binary op u v)
  | power {k n : Int} {t u : Term} :
      n ≠ 0 → Under k t u → Under (n * k) t (.binary .caret u (.int n))

/-- Some power that is not below a zero exponent, multiplied with the exponents around it, is above
the limit. -/
def TooLarge (u : Term) : Prop :=
  ∃ k v n, Under k (.binary .caret v (.int n)) u ∧ maxExponent < n * k

/-- No compound symbol stands outside of zero powers. -/
def Plain (u : Term) : Prop := ∀ k s, Under k (.name s) u → compound? s = none

theorem dimension_dimensionless {u : Term} (h : Written u) : dimension u dimensionless = 0 := by
  induction h with
  | symbol hs => simp [dimension, single, Ne.symm (atom_ne_dimensionless hs)]
  | one => rfl
  | times _ _ hu hv => simp [dimension, hu, hv]
  | slash _ _ hu hv => simp [dimension, hu, hv]
  | power _ _ hu => simp [dimension, Term.int, hu]

/-! Canonical units -/

structure Lists (x : Exponents) (d : Dimension) : Prop where
  sorted : x.Sorted
  mem_iff : ∀ s n, (s, n) ∈ x ↔ 0 < n ∧ d s = n

/-- The zero dimension is no unit; any other is the fraction of its positive entries over its
negated negative ones. -/
def Denotes : Option Fraction → Dimension → Prop
  | none, d => ∀ s, d s = 0
  | some f, d => (∃ s, d s ≠ 0) ∧ Lists f.numerator d ∧ Lists f.denominator fun s => -d s

/-- Numerator minus denominator, zero for no unit. -/
def dimensionOf : Option Fraction → Dimension
  | none => fun _ => 0
  | some f => fun s => Exponents.count s f.numerator - Exponents.count s f.denominator

theorem Lists.positive {x : Exponents} {d : Dimension} (h : Lists x d) : x.Positive :=
  fun p hp => ((h.mem_iff p.1 p.2).1 hp).1

theorem Lists.count {x : Exponents} {d : Dimension} (h : Lists x d) (s : String) :
    x.count s = max (d s) 0 := by
  have hn := h.positive.count_nonneg s
  by_cases hd : 0 < d s
  · have hm := (h.mem_iff s (d s)).2 ⟨hd, rfl⟩
    have hc := ((h.sorted.mem_iff_count h.positive).1 hm).2
    omega
  · have hz : ¬0 < x.count s := fun hc => by
      have hm := (h.sorted.mem_iff_count h.positive).2 ⟨hc, rfl⟩
      have := ((h.mem_iff s _).1 hm).2
      omega
    omega

theorem Lists.unique {x y : Exponents} {d : Dimension} (hx : Lists x d) (hy : Lists y d) : x = y :=
  hx.sorted.ext hy.sorted fun s n => (hx.mem_iff s n).trans (hy.mem_iff s n).symm

theorem Denotes.dimensionOf_eq {p : Option Fraction} {d : Dimension} (h : Denotes p d) :
    dimensionOf p = d := by
  funext s
  cases p with
  | none => exact (h s).symm
  | some f =>
    obtain ⟨_, hn, hd⟩ := h
    have h₁ := hn.count s
    have h₂ := hd.count s
    simp only [dimensionOf]
    omega

theorem Denotes.eq_iff {p q : Option Fraction} {d e : Dimension} (hp : Denotes p d)
    (hq : Denotes q e) : p = q ↔ d = e := by
  constructor
  · rintro rfl
    exact hp.dimensionOf_eq.symm.trans hq.dimensionOf_eq
  · rintro rfl
    match p, q, hp, hq with
    | none, none, _, _ => rfl
    | none, some _, hp, ⟨⟨s, hs⟩, _⟩ => exact absurd (hp s) hs
    | some _, none, ⟨⟨s, hs⟩, _⟩, hq => exact absurd (hq s) hs
    | some f, some g, hp, hq =>
      have hn := hp.2.1.unique hq.2.1
      have hd := hp.2.2.unique hq.2.2
      obtain ⟨a, b⟩ := f
      obtain ⟨a', b'⟩ := g
      cases hn
      cases hd
      rfl

theorem denotes_symbol {s : String} (hc : compound? s = none) :
    Denotes (some ⟨[(s, 1)], []⟩) (dimension (.name s)) := by
  have hd (t : String) : dimension (.name s) t = if t = s then 1 else 0 := by
    rw [dimension, atom_of_atomic hc]
    rfl
  refine ⟨⟨s, ?_⟩, ⟨List.pairwise_singleton _ _, fun t n => ?_⟩, ⟨.nil, fun t n => ?_⟩⟩
  · simp [hd]
  · by_cases ht : t = s
    · simp only [hd, ht, ↓reduceIte, List.mem_singleton, Prod.mk.injEq, true_and]
      omega
    · simp only [hd, ht, ↓reduceIte, List.mem_singleton, Prod.mk.injEq, false_and, false_iff]
      omega
  · simp only [hd, List.not_mem_nil, false_iff]
    split <;> omega

theorem lists_of_count {x : Exponents} {d : Dimension} (hs : x.Sorted) (hp : x.Positive)
    (h : ∀ s, x.count s = max (d s) 0) : Lists x d := by
  refine ⟨hs, fun s n => ?_⟩
  have hc := h s
  rw [hs.mem_iff_count hp]
  constructor
  · rintro ⟨hn, he⟩
    exact ⟨hn, by omega⟩
  · rintro ⟨hn, he⟩
    exact ⟨hn, by omega⟩

theorem eq_nil_iff_count {x : Exponents} (hp : x.Positive) : x = [] ↔ ∀ s, x.count s = 0 := by
  constructor
  · rintro rfl s
    rfl
  · intro h
    cases x with
    | nil => rfl
    | cons p r =>
      have hn : 0 < p.2 := hp p List.mem_cons_self
      have := h p.1
      simp only [Exponents.count, Exponents.count?, if_true, Option.getD_some] at this
      omega

/-- Cancelling two lists of counts leaves the canonical unit of their difference, the number one
apart. -/
theorem denotes_cancelled {x y : Exponents} (hx : x.Sorted) (hy : y.Sorted) (hpx : x.Positive)
    (hpy : y.Positive) {d : Dimension} (hd : ∀ s, s ≠ dimensionless → d s = x.count s - y.count s)
    (h₁ : d dimensionless = 0) : Denotes (cancelled x y) d := by
  have hn : ∀ s, ((x.less y).drop dimensionless).count s = max (d s) 0 := by
    intro s
    rw [(hx.less y).count_drop]
    by_cases hs : s = dimensionless
    · simp [hs, h₁]
    · rw [if_neg hs, hx.count_less hpx hpy, hd s hs]
  have hm : ∀ s, ((y.less x).drop dimensionless).count s = max (-d s) 0 := by
    intro s
    rw [(hy.less x).count_drop]
    by_cases hs : s = dimensionless
    · simp [hs, h₁]
    · rw [if_neg hs, hy.count_less hpy hpx, hd s hs]
      congr 1
      omega
  have pn := (Exponents.positive_less x y).drop dimensionless
  have pm := (Exponents.positive_less y x).drop dimensionless
  have hz : (∀ s, d s = 0) ↔
      (x.less y).drop dimensionless = [] ∧ (y.less x).drop dimensionless = [] := by
    rw [eq_nil_iff_count pn, eq_nil_iff_count pm]
    constructor
    · intro h
      exact ⟨fun s => by simp [hn s, h s], fun s => by simp [hm s, h s]⟩
    · rintro ⟨h, h'⟩ s
      have := hn s
      have := hm s
      have := h s
      have := h' s
      omega
  simp only [cancelled, Bool.and_eq_true, List.isEmpty_iff]
  split
  · next he => exact hz.2 he
  · next he =>
    exact ⟨by simpa using fun h => he (hz.1 h), lists_of_count ((hx.less y).drop _) pn hn,
      lists_of_count ((hy.less x).drop _) pm hm⟩

end Units
end UnitCalculator
