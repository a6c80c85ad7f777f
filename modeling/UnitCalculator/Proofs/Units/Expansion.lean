import UnitCalculator.Proofs.Units.Dimension
import Mathlib.Tactic.Ring

/-!
Units without powers. Powers become products and compound symbols become their bases; neither
changes the dimension. The only unit that is refused on the way is one with a power above the
limit, a vanished scale factor apart.
-/

set_option autoImplicit false

namespace UnitCalculator.Units

inductive Flat : Term → Prop where
  | symbol (s : String) : Flat (.name s)
  | int (n : Int) (u : Term) : Flat (.number (.int n) u)
  | times {u v : Term} : Flat u → Flat v → Flat (.binary .times u v)
  | slash {u v : Term} : Flat u → Flat v → Flat (.binary .slash u v)

theorem Flat.binary {op : Operator} {u v : Term} (h : op = .times ∨ op = .slash) (hu : Flat u)
    (hv : Flat v) : Flat (.binary op u v) := by
  rcases h with rfl | rfl
  · exact hu.times hv
  · exact hu.slash hv

theorem dimension_binary_congr {op : Operator} {u v u' v' : Term} (h : op ≠ .caret)
    (hu : dimension u' = dimension u) (hv : dimension v' = dimension v) :
    dimension (.binary op u' v') = dimension (.binary op u v) := by
  cases op with
  | caret => exact absurd rfl h
  | times => rw [dimension, dimension, hu, hv]
  | slash => rw [dimension, dimension, hu, hv]
  | _ => rfl

def symbols : Term → List String
  | .name s => [s]
  | .binary _ u v => symbols u ++ symbols v
  | _ => []

/-! Powers -/

/-- A power within `u` is above the limit, where `scale` is the power that stands around `u`. -/
def Exceeds (scale : Int) (u : Term) : Prop :=
  ∃ k v n, Under k (.binary .caret v (.int n)) u ∧ maxExponent < n * k * scale

theorem tooLarge_iff_exceeds {u : Term} : TooLarge u ↔ Exceeds 1 u := by
  simp [TooLarge, Exceeds]

theorem not_exceeds_leaf {u : Term} (scale : Int) (h : ∀ op v w, u ≠ .binary op v w) :
    ¬Exceeds scale u := by
  rintro ⟨k, v, n, hu, _⟩
  cases hu <;> exact h _ _ _ rfl

theorem exceeds_binary {scale : Int} {op : Operator} {u v : Term} (h : op ≠ .caret) :
    Exceeds scale (.binary op u v) ↔ Exceeds scale u ∨ Exceeds scale v := by
  constructor
  · rintro ⟨k, w, n, hw, hn⟩
    cases hw with
    | here => exact absurd rfl h
    | left _ hw => exact .inl ⟨k, w, n, hw, hn⟩
    | right _ hw => exact .inr ⟨k, w, n, hw, hn⟩
    | power => exact absurd rfl h
  · rintro (⟨k, w, n, hw, hn⟩ | ⟨k, w, n, hw, hn⟩)
    · exact ⟨k, w, n, .left h hw, hn⟩
    · exact ⟨k, w, n, .right h hw, hn⟩

theorem exceeds_power {scale n : Int} {u : Term} :
    Exceeds scale (.binary .caret u (.int n)) ↔
      maxExponent < n * scale ∨ n ≠ 0 ∧ Exceeds (n * scale) u := by
  constructor
  · rintro ⟨k, w, m, hw, hm⟩
    cases hw with
    | here => exact .inl (by simpa using hm)
    | left h => exact absurd rfl h
    | right h => exact absurd rfl h
    | power hn hw =>
      refine .inr ⟨hn, _, w, m, hw, ?_⟩
      convert hm using 1
      ring
  · rintro (h | ⟨hn, k, w, m, hw, hm⟩)
    · exact ⟨1, u, n, .here, by simpa using h⟩
    · refine ⟨n * k, w, m, .power hn hw, ?_⟩
      convert hm using 1
      ring

/-- What a written unit is once its powers are products. -/
structure Expanded (u v : Term) : Prop where
  flat : Flat v
  dimension_eq : dimension v = dimension u
  symbols_under : ∀ s ∈ symbols v, ∃ k, Under k (.name s) u

theorem flat_repeated {b p : Term} (hb : Flat b) (hp : Flat p) (k : Nat) :
    Flat (repeated b k p) := by
  induction k generalizing p with
  | zero => exact hp
  | succ k ih => exact ih (.times hb hp)

theorem dimension_repeated (b p : Term) (k : Nat) :
    dimension (repeated b k p) = fun s => k * dimension b s + dimension p s := by
  induction k generalizing p with
  | zero => simp [repeated]
  | succ k ih =>
    rw [repeated, ih]
    funext s
    simp only [dimension]
    push_cast
    ring

theorem mem_symbols_repeated {b p : Term} {s : String} {k : Nat}
    (h : s ∈ symbols (repeated b k p)) : s ∈ symbols b ∨ s ∈ symbols p := by
  induction k generalizing p with
  | zero => exact .inr h
  | succ k ih =>
    rcases ih h with h | h
    · exact .inl h
    · exact List.mem_append.1 h

/-- A power of an expanded unit, for an exponent above zero. -/
theorem Expanded.power {u b : Term} (h : Expanded u b) {n : Int} (hn : 0 < n) :
    Expanded (.binary .caret u (.int n)) (repeated b (n - 1).toNat b) where
  flat := flat_repeated h.flat h.flat _
  dimension_eq := by
    have hk : ((n - 1).toNat : Int) = n - 1 := Int.toNat_of_nonneg (by omega)
    rw [dimension_repeated, h.dimension_eq, hk]
    funext s
    simp only [dimension, Term.int]
    ring
  symbols_under := by
    intro s hs
    have hb : s ∈ symbols b := (mem_symbols_repeated hs).elim id id
    obtain ⟨k, hk⟩ := h.symbols_under s hb
    exact ⟨n * k, .power (by omega) hk⟩

theorem Expanded.zeroPower (u : Term) : Expanded (.binary .caret u (.int 0)) (.int 1) where
  flat := .int 1 _
  dimension_eq := by
    funext s
    simp [dimension, Term.int]
  symbols_under := by simp [symbols, Term.int]

theorem Expanded.binary {op : Operator} {u v u' v' : Term} (h : op = .times ∨ op = .slash)
    (hu : Expanded u u') (hv : Expanded v v') : Expanded (.binary op u v) (.binary op u' v') where
  flat := hu.flat.binary h hv.flat
  dimension_eq :=
    dimension_binary_congr (by rcases h with rfl | rfl <;> decide) hu.dimension_eq hv.dimension_eq
  symbols_under := by
    have hc : op ≠ .caret := by rcases h with rfl | rfl <;> decide
    intro s hs
    rcases List.mem_append.1 hs with hs | hs
    · obtain ⟨k, hk⟩ := hu.symbols_under s hs
      exact ⟨k, .left hc hk⟩
    · obtain ⟨k, hk⟩ := hv.symbols_under s hs
      exact ⟨k, .right hc hk⟩

def Expands (scale : Int) (u : Term) : Prop :=
  (∃ n, expandExponents scale u = .error (.exponentTooLarge n) ∧ Exceeds scale u) ∨
    ∃ v, expandExponents scale u = .ok v ∧ ¬Exceeds scale u ∧ Expanded u v

theorem expandExponents_binary {op : Operator} (h : op = .times ∨ op = .slash) (scale : Int)
    (u v : Term) : expandExponents scale (.binary op u v) = (expandExponents scale u).bind
      fun u => (expandExponents scale v).bind fun v => .ok (.binary op u v) := by
  rcases h with rfl | rfl <;> rfl

theorem Expands.binary {scale : Int} {op : Operator} {u v : Term}
    (h : op = .times ∨ op = .slash) (hu : Expands scale u) (hv : Expands scale v) :
    Expands scale (.binary op u v) := by
  unfold Expands
  rw [exceeds_binary (by rcases h with rfl | rfl <;> decide), expandExponents_binary h]
  rcases hu with ⟨n, he, hx⟩ | ⟨u', he, hx, hu'⟩
  · exact .inl ⟨n, by rw [he, Except.bind], .inl hx⟩
  rcases hv with ⟨n, he', hx'⟩ | ⟨v', he', hx', hv'⟩
  · exact .inl ⟨n, by rw [he, he', Except.bind, Except.bind], .inr hx'⟩
  · exact .inr ⟨_, by rw [he, he', Except.bind, Except.bind], by tauto, hu'.binary h hv'⟩

theorem Expands.power {scale n : Int} {u : Term} (hn : 0 ≤ n) (hu : Expands (n * scale) u) :
    Expands scale (.binary .caret u (.int n)) := by
  unfold Expands
  rw [exceeds_power]
  by_cases hx : maxExponent < n * scale
  · exact .inl ⟨n * scale, by simp [expandExponents, Term.int, hx], .inl hx⟩
  by_cases hz : n = 0
  · subst hz
    refine .inr ⟨.int 1, ?_, by simpa using hx, .zeroPower u⟩
    simpa [expandExponents, Term.int] using hx
  rcases hu with ⟨m, he, hx'⟩ | ⟨b, he, hx', hb⟩
  · exact .inl ⟨m, by simp [expandExponents, Term.int, hx, hz, he, bind, Except.bind],
      .inr ⟨hz, hx'⟩⟩
  · exact .inr ⟨_, by simp [expandExponents, Term.int, hx, hz, he, bind, Except.bind], by tauto,
      hb.power (by omega)⟩

theorem Written.expands {u : Term} (hu : Written u) (scale : Int) : Expands scale u := by
  induction hu generalizing scale with
  | @symbol s _ =>
    refine .inr ⟨.name s, rfl, not_exceeds_leaf scale (by simp), .symbol s, rfl, ?_⟩
    intro t ht
    cases List.mem_singleton.1 ht
    exact ⟨1, .here⟩
  | one =>
    exact .inr ⟨.int 1, rfl, not_exceeds_leaf scale (by simp [Term.int]), .int 1 _, rfl,
      by simp [symbols, Term.int]⟩
  | times _ _ hu hv => exact (hu scale).binary (.inl rfl) (hv scale)
  | slash _ _ hu hv => exact (hu scale).binary (.inr rfl) (hv scale)
  | power hn _ hu => exact (hu _).power hn

/-! Compound symbols -/

def resolve : Term → Term
  | .name s => .name (base s)
  | .binary op u v => .binary op (resolve u) (resolve v)
  | u => u

theorem Flat.resolve {u : Term} (h : Flat u) : Flat (resolve u) := by
  induction h with
  | symbol s => exact .symbol _
  | int n u => exact .int n u
  | times _ _ hu hv => exact .times hu hv
  | slash _ _ hu hv => exact .slash hu hv

theorem dimension_resolve {u : Term} (h : Flat u) : dimension (resolve u) = dimension u := by
  induction h with
  | symbol s => simp [Units.resolve, dimension, atom_base]
  | int n u => rfl
  | times _ _ hu hv => simp [Units.resolve, dimension, hu, hv]
  | slash _ _ hu hv => simp [Units.resolve, dimension, hu, hv]

theorem symbols_resolve {u : Term} (h : Flat u) : symbols (resolve u) = (symbols u).map base := by
  induction h with
  | symbol s => rfl
  | int n u => rfl
  | times _ _ hu hv => simp [Units.resolve, symbols, hu, hv]
  | slash _ _ hu hv => simp [Units.resolve, symbols, hu, hv]

theorem resolve_of_atomic {u : Term} (h : Flat u) (ha : ∀ s ∈ symbols u, compound? s = none) :
    resolve u = u := by
  induction h with
  | symbol s => simp [Units.resolve, base_of_atomic (ha s (by simp [symbols]))]
  | int n u => rfl
  | times _ _ hu hv =>
    simp only [symbols, List.mem_append] at ha
    simp [Units.resolve, hu fun s hs => ha s (.inl hs), hv fun s hs => ha s (.inr hs)]
  | slash _ _ hu hv =>
    simp only [symbols, List.mem_append] at ha
    simp [Units.resolve, hu fun s hs => ha s (.inl hs), hv fun s hs => ha s (.inr hs)]

/-- A pass over a unit without powers fails only where a scale factor has vanished. -/
theorem replaceCompounds_flat {u : Term} (h : Flat u) :
    replaceCompounds u = .error .scaleVanished ∨
      ∃ f, replaceCompounds u =
        .ok ⟨f, resolve u, (symbols u).all fun s => (compound? s).isNone⟩ := by
  induction h with
  | symbol s =>
    refine .inr ?_
    cases hs : compound? s with
    | none => exact ⟨1, by simp [replaceCompounds, Units.resolve, symbols, base, hs]⟩
    | some c => exact ⟨c.factor, by simp [replaceCompounds, Units.resolve, symbols, base, hs]⟩
  | int n u => exact .inr ⟨1, by simp [replaceCompounds, Units.resolve, symbols]⟩
  | times _ _ hu hv =>
    rcases hu with hu | ⟨f, hu⟩
    · exact .inl (by simp [replaceCompounds, hu, bind, Except.bind])
    rcases hv with hv | ⟨g, hv⟩
    · exact .inl (by simp [replaceCompounds, hu, hv, bind, Except.bind])
    · exact .inr ⟨f * g, by
        simp [replaceCompounds, hu, hv, bind, Except.bind, Units.resolve, symbols]⟩
  | slash _ _ hu hv =>
    rcases hu with hu | ⟨f, hu⟩
    · exact .inl (by simp [replaceCompounds, hu, bind, Except.bind])
    rcases hv with hv | ⟨g, hv⟩
    · exact .inl (by simp [replaceCompounds, hu, hv, bind, Except.bind])
    by_cases hg : (g == 0) = true
    · exact .inl (by simp [replaceCompounds, hu, hv, bind, Except.bind, divideFactors, hg])
    · exact .inr ⟨f / g, by
        simp [replaceCompounds, hu, hv, bind, Except.bind, divideFactors, hg, Units.resolve,
          symbols]⟩

structure Atomized (u v : Term) : Prop where
  flat : Flat v
  dimension_eq : dimension v = dimension u
  atomic : ∀ s ∈ symbols v, compound? s = none

/-- Passes are repeated until all symbols are atomic, which needs one more of them than the longest
chain of the table has rows. -/
theorem toAtomic_flat {u : Term} (h : Flat u) {n k : Nat} (hk : n < k)
    (hn : ∀ s ∈ symbols u, compound? (Nat.repeat base n s) = none) (f : Option Float) :
    toAtomic k f u = .error .scaleVanished ∨
      ∃ g v, toAtomic k f u = .ok (g, v) ∧ Atomized u v := by
  induction k generalizing u n f with
  | zero => omega
  | succ k ih =>
    rcases replaceCompounds_flat h with hr | ⟨r, hr⟩
    · exact .inl (by simp [toAtomic, hr, bind, Except.bind])
    by_cases ha : ∀ s ∈ symbols u, compound? s = none
    · have hall : ((symbols u).all fun s => (compound? s).isNone) = true := by
        simpa [List.all_eq_true] using ha
      refine .inr ⟨f, u, ?_, h, rfl, ha⟩
      simp only [toAtomic, hr, bind, Except.bind]
      rw [if_pos hall, resolve_of_atomic h ha]
    · have hall : ¬((symbols u).all fun s => (compound? s).isNone) = true := by
        simpa [List.all_eq_true] using ha
      obtain ⟨m, rfl⟩ : ∃ m, n = m + 1 := by
        cases n with
        | zero => exact absurd hn ha
        | succ m => exact ⟨m, rfl⟩
      have hm : ∀ s ∈ symbols (resolve u), compound? (Nat.repeat base m s) = none := by
        rw [symbols_resolve h]
        intro t ht
        obtain ⟨s, hs, rfl⟩ := List.mem_map.1 ht
        exact repeat_base_succ m s ▸ hn s hs
      have step : toAtomic (k + 1) f u = toAtomic k (some (f.getD 1 * r)) (resolve u) := by
        simp only [toAtomic, hr, bind, Except.bind]
        rw [if_neg hall]
      rw [step]
      rcases ih h.resolve (by omega) hm _ with he | ⟨g, v, he, hv⟩
      · exact .inl he
      · exact .inr ⟨g, v, he, hv.flat, hv.dimension_eq.trans (dimension_resolve h), hv.atomic⟩

end UnitCalculator.Units
