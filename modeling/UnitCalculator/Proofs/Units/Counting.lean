import UnitCalculator.Units.Exponents
import Mathlib.Data.List.Sort

/-!
Lists of exponents as functions from symbols to counts. The lists stay in the strict order of their
symbols, so a list is known by the counts of its symbols, and every operation is known by what it
does to a count.
-/

set_option autoImplicit false

namespace UnitCalculator.Exponents

/-- In strict order, so that no symbol occurs twice. -/
def Sorted (x : Exponents) : Prop := x.Pairwise fun p q => p.1 < q.1

def Positive (x : Exponents) : Prop := ∀ p ∈ x, 0 < p.2

theorem sorted_nil : Sorted [] := List.Pairwise.nil

theorem positive_nil : Positive [] := by simp [Positive]

theorem Sorted.tail {p : String × Int} {x : Exponents} (h : Sorted (p :: x)) : Sorted x :=
  (List.pairwise_cons.1 h).2

theorem Sorted.head_lt {p q : String × Int} {x : Exponents} (h : Sorted (p :: x)) (hq : q ∈ x) :
    p.1 < q.1 := (List.pairwise_cons.1 h).1 q hq

theorem count?_eq_none {s : String} {x : Exponents} (h : ∀ p ∈ x, s < p.1) :
    x.count? s = none := by
  induction x with
  | nil => rfl
  | cons p r ih =>
    have hs : s < p.1 := h p (by simp)
    have hne : s ≠ p.1 := fun e => String.lt_irrefl _ (e ▸ hs)
    rw [count?, if_neg hne]
    exact ih fun q hq => h q (by simp [hq])

theorem Sorted.count?_head {p : String × Int} {x : Exponents} (h : Sorted (p :: x)) :
    x.count? p.1 = none := count?_eq_none fun _ hq => h.head_lt hq

theorem mem_of_count? {s : String} {n : Int} {x : Exponents} (h : x.count? s = some n) :
    (s, n) ∈ x := by
  induction x with
  | nil => simp [count?] at h
  | cons p r ih =>
    obtain ⟨t, m⟩ := p
    by_cases hs : s = t
    · simp only [count?, if_pos hs, Option.some.injEq] at h
      simp [hs, h]
    · simp only [count?, if_neg hs] at h
      exact List.mem_cons_of_mem _ (ih h)

theorem Sorted.mem_iff {s : String} {n : Int} {x : Exponents} (h : Sorted x) :
    (s, n) ∈ x ↔ x.count? s = some n := by
  refine ⟨fun hm => ?_, mem_of_count?⟩
  induction x with
  | nil => simp at hm
  | cons p r ih =>
    obtain ⟨t, m⟩ := p
    rcases List.mem_cons.1 hm with he | hr
    · cases he
      simp [count?]
    · have hs : s ≠ t := fun e => String.lt_irrefl _ (e ▸ h.head_lt hr)
      rw [count?, if_neg hs]
      exact ih h.tail hr

theorem Positive.count_pos {s : String} {n : Int} {x : Exponents} (h : Positive x)
    (hs : x.count? s = some n) : 0 < n := h _ (mem_of_count? hs)

theorem Positive.count_nonneg {x : Exponents} (h : Positive x) (s : String) :
    0 ≤ x.count s := by
  unfold count
  cases hs : x.count? s with
  | none => simp
  | some n =>
    have := h.count_pos hs
    simp only [Option.getD_some]
    omega

theorem Sorted.mem_iff_count {s : String} {n : Int} {x : Exponents} (h : Sorted x)
    (hp : Positive x) : (s, n) ∈ x ↔ 0 < n ∧ x.count s = n := by
  rw [h.mem_iff]
  constructor
  · intro hs
    exact ⟨hp.count_pos hs, by simp [count, hs]⟩
  · rintro ⟨hn, hs⟩
    unfold count at hs
    cases hc : x.count? s with
    | none =>
      simp [hc] at hs
      omega
    | some m => simpa [hc] using hs

theorem Sorted.ext {x y : Exponents} (hx : Sorted x) (hy : Sorted y)
    (h : ∀ s n, (s, n) ∈ x ↔ (s, n) ∈ y) : x = y := by
  have : Std.Irrefl fun p q : String × Int => p.1 < q.1 := ⟨fun p => String.lt_irrefl p.1⟩
  exact hx.eq_of_mem_iff hy fun p => h p.1 p.2

/-! Changing the count of one symbol -/

theorem lt_of_not {s t : String} (h : ¬s < t) (hne : s ≠ t) : t < s := by
  by_contra h'
  exact hne (String.le_antisymm (String.not_lt.1 h') (String.not_lt.1 h))

theorem mem_update_fst {s : String} {f : Option Int → Int} {x : Exponents} {p : String × Int}
    (h : p ∈ x.update s f) : p.1 = s ∨ ∃ q ∈ x, q.1 = p.1 := by
  induction x with
  | nil =>
    simp only [update, List.mem_singleton] at h
    exact .inl (h ▸ rfl)
  | cons q r ih =>
    obtain ⟨t, n⟩ := q
    unfold update at h
    split at h
    · rcases List.mem_cons.1 h with rfl | h
      · exact .inl rfl
      · exact .inr ⟨p, h, rfl⟩
    · split at h
      · next hs =>
        rcases List.mem_cons.1 h with rfl | h
        · exact .inl hs.symm
        · exact .inr ⟨p, List.mem_cons_of_mem _ h, rfl⟩
      · rcases List.mem_cons.1 h with rfl | h
        · exact .inr ⟨_, List.mem_cons_self, rfl⟩
        · rcases ih h with h | ⟨q, hq, he⟩
          · exact .inl h
          · exact .inr ⟨q, List.mem_cons_of_mem _ hq, he⟩

theorem Sorted.update {x : Exponents} (h : Sorted x) (s : String) (f : Option Int → Int) :
    Sorted (x.update s f) := by
  induction x with
  | nil => simp [Exponents.update, Sorted]
  | cons p r ih =>
    obtain ⟨t, n⟩ := p
    unfold Exponents.update
    split
    · next hs =>
      refine List.pairwise_cons.2 ⟨fun q hq => ?_, h⟩
      rcases List.mem_cons.1 hq with rfl | hq
      · exact hs
      · exact String.lt_trans hs (h.head_lt hq)
    · next hs =>
      split
      · exact List.pairwise_cons.2 ⟨fun q hq => h.head_lt hq, h.tail⟩
      · next hne =>
        refine List.pairwise_cons.2 ⟨fun q hq => ?_, ih h.tail⟩
        rcases mem_update_fst hq with he | ⟨p, hp, he⟩
        · exact he ▸ lt_of_not hs hne
        · exact he ▸ h.head_lt hp

theorem Sorted.count?_update {x : Exponents} (h : Sorted x) (s t : String)
    (f : Option Int → Int) :
    (x.update s f).count? t = if t = s then some (f (x.count? s)) else x.count? t := by
  induction x with
  | nil => rfl
  | cons p r ih =>
    obtain ⟨u, n⟩ := p
    unfold Exponents.update
    split
    · next hs =>
      have hn : Exponents.count? s ((u, n) :: r) = none := by
        refine count?_eq_none fun q hq => ?_
        rcases List.mem_cons.1 hq with rfl | hq
        · exact hs
        · exact String.lt_trans hs (h.head_lt hq)
      rw [hn, count?]
    · next hs =>
      split
      · next he =>
        subst he
        by_cases ht : t = s <;> simp [count?, ht]
      · next hne =>
        by_cases ht : t = u
        · subst ht
          simp [count?, Ne.symm hne]
        · simp [count?, ht, hne, ih h.tail]

theorem Positive.update {x : Exponents} (h : Positive x) {s : String} {f : Option Int → Int}
    (hf : ∀ n, (∀ m, n = some m → 0 < m) → 0 < f n) : Positive (x.update s f) := by
  induction x with
  | nil =>
    intro p hp
    simp only [Exponents.update, List.mem_singleton] at hp
    subst hp
    exact hf none (by simp)
  | cons p r ih =>
    obtain ⟨t, n⟩ := p
    have hn : 0 < n := h (t, n) (by simp)
    have hr : Positive r := fun q hq => h q (by simp [hq])
    unfold Exponents.update
    split
    · intro q hq
      rcases List.mem_cons.1 hq with rfl | hq
      · exact hf none (by simp)
      · exact h q hq
    · split
      · intro q hq
        rcases List.mem_cons.1 hq with rfl | hq
        · exact hf (some n) (by simpa using hn)
        · exact hr q hq
      · intro q hq
        rcases List.mem_cons.1 hq with rfl | hq
        · exact hn
        · exact ih hr q hq

theorem Sorted.add {x : Exponents} (h : Sorted x) (s : String) (n : Int) : Sorted (x.add s n) :=
  h.update s _

theorem Sorted.count_add {x : Exponents} (h : Sorted x) (s t : String) (n : Int) :
    (x.add s n).count t = x.count t + if t = s then n else 0 := by
  unfold count Exponents.add
  rw [h.count?_update]
  by_cases ht : t = s <;> simp [ht]

theorem Positive.add {x : Exponents} (h : Positive x) {s : String} {n : Int} (hn : 0 < n) :
    Positive (x.add s n) := by
  refine h.update fun m hm => ?_
  cases m with
  | none => simpa using hn
  | some m =>
    have := hm m rfl
    simp only [Option.getD_some]
    omega

/-! Whole lists -/

theorem count?_map (g : String → Int → Int) (s : String) (x : Exponents) :
    count? s (x.map fun p => (p.1, g p.1 p.2)) = (x.count? s).map (g s) := by
  induction x with
  | nil => rfl
  | cons p r ih =>
    obtain ⟨t, n⟩ := p
    by_cases hs : s = t
    · subst hs
      simp [count?]
    · simp [count?, hs, ih]

theorem Sorted.map {x : Exponents} (h : Sorted x) (g : String → Int → Int) :
    Sorted (x.map fun p => (p.1, g p.1 p.2)) :=
  List.pairwise_map.2 h

theorem Sorted.filter {x : Exponents} (h : Sorted x) (q : String × Int → Bool) :
    Sorted (x.filter q) := List.Pairwise.filter q h

theorem Sorted.count?_filter {x : Exponents} (h : Sorted x) (q : String × Int → Bool)
    (s : String) : count? s (x.filter q) = (x.count? s).filter fun n => q (s, n) := by
  apply Option.ext
  intro n
  rw [← (h.filter q).mem_iff, List.mem_filter, h.mem_iff, Option.filter_eq_some_iff]

theorem positive_positive (x : Exponents) : Positive x.positive := by
  intro p hp
  simpa using (List.mem_filter.1 hp).2

theorem Sorted.positive {x : Exponents} (h : Sorted x) : Sorted x.positive := h.filter _

theorem Sorted.count_positive {x : Exponents} (h : Sorted x) (s : String) :
    x.positive.count s = max (x.count s) 0 := by
  unfold count Exponents.positive
  rw [h.count?_filter]
  cases x.count? s with
  | none => rfl
  | some n =>
    by_cases hn : 0 < n
    · simp [Option.filter, hn]
      omega
    · simp [Option.filter, hn]
      omega

theorem Positive.filter {x : Exponents} (h : Positive x) (q : String × Int → Bool) :
    Positive (x.filter q) := fun p hp => h p (List.mem_of_mem_filter hp)

theorem Sorted.drop {x : Exponents} (h : Sorted x) (s : String) : Sorted (x.drop s) := h.filter _

theorem Positive.drop {x : Exponents} (h : Positive x) (s : String) : Positive (x.drop s) :=
  h.filter _

theorem Sorted.count_drop {x : Exponents} (h : Sorted x) (s t : String) :
    (x.drop s).count t = if t = s then 0 else x.count t := by
  unfold count Exponents.drop
  rw [h.count?_filter]
  by_cases ht : t = s
  · cases x.count? t <;> simp [ht, Option.filter]
  · cases x.count? t <;> simp [ht, Option.filter]

/-- What `y` leaves of a count. -/
def left (y : Exponents) (s : String) (n : Int) : Int :=
  match y.count? s with
  | some m => n - min n m
  | none => n

theorem less_eq (x y : Exponents) :
    x.less y = positive (x.map fun p => (p.1, y.left p.1 p.2)) := rfl

theorem Sorted.less {x : Exponents} (h : Sorted x) (y : Exponents) : Sorted (x.less y) :=
  (h.map y.left).positive

theorem positive_less (x y : Exponents) : Positive (x.less y) := positive_positive _

/-- What is left of a symbol is what one side has more of than the other. -/
theorem Sorted.count_less {x y : Exponents} (h : Sorted x) (hx : Positive x) (hy : Positive y)
    (s : String) : (x.less y).count s = max (x.count s - y.count s) 0 := by
  rw [less_eq, (h.map y.left).count_positive]
  unfold count
  rw [count?_map y.left]
  have hyn := hy.count_nonneg s
  unfold count at hyn
  cases hs : x.count? s with
  | none =>
    simp only [Option.map_none, Option.getD_none]
    omega
  | some n =>
    have hn := hx.count_pos hs
    cases hm : y.count? s with
    | none =>
      simp only [left, hm, Option.map_some, Option.getD_some, Option.getD_none]
      omega
    | some m =>
      simp only [left, hm, Option.map_some, Option.getD_some]
      omega

theorem Sorted.scale {x : Exponents} (h : Sorted x) (n : Int) : Sorted (x.scale n) :=
  h.map fun _ m => m * n

theorem Positive.scale {x : Exponents} (h : Positive x) {n : Int} (hn : 0 < n) :
    Positive (x.scale n) := by
  intro p hp
  obtain ⟨q, hq, rfl⟩ := List.mem_map.1 hp
  exact Int.mul_pos (h q hq) hn

theorem count_scale (x : Exponents) (n : Int) (s : String) :
    (x.scale n).count s = x.count s * n := by
  unfold count Exponents.scale
  rw [count?_map fun _ m => m * n]
  cases x.count? s <;> simp

theorem Sorted.addAll {x : Exponents} (h : Sorted x) (y : Exponents) :
    Sorted (y.foldl (fun z p => z.add p.1 p.2) x) := by
  induction y generalizing x with
  | nil => exact h
  | cons p r ih => exact ih (h.add p.1 p.2)

theorem Sorted.count_addAll {x y : Exponents} (h : Sorted x) (hy : Sorted y) (s : String) :
    count s (y.foldl (fun z p => z.add p.1 p.2) x) = x.count s + y.count s := by
  induction y generalizing x with
  | nil => simp [count, count?]
  | cons p r ih =>
    have hr : count p.1 r = 0 := by simp [count, hy.count?_head]
    rw [List.foldl_cons, ih (h.add p.1 p.2) hy.tail, h.count_add]
    by_cases hs : s = p.1
    · subst hs
      rw [hr]
      simp [count, count?]
    · simp [count, count?, hs]

theorem Sorted.sum {x : Exponents} (h : Sorted x) (y : Exponents) : Sorted (x.sum y) :=
  (h.addAll y).positive

theorem positive_sum (x y : Exponents) : Positive (x.sum y) := positive_positive _

theorem Sorted.count_sum {x y : Exponents} (h : Sorted x) (hy : Sorted y) (hpx : Positive x)
    (hpy : Positive y) (s : String) : (x.sum y).count s = x.count s + y.count s := by
  unfold Exponents.sum
  rw [(h.addAll y).count_positive, h.count_addAll hy]
  have := hpx.count_nonneg s
  have := hpy.count_nonneg s
  omega

theorem set_of_forall_lt {x : Exponents} {s : String} (n : Int) (h : ∀ p ∈ x, p.1 < s) :
    x.set s n = x ++ [(s, n)] := by
  induction x with
  | nil => rfl
  | cons p r ih =>
    obtain ⟨t, m⟩ := p
    have ht : t < s := h (t, m) (by simp)
    have hne : s ≠ t := fun e => String.lt_irrefl _ (e ▸ ht)
    have hr := ih fun q hq => h q (by simp [hq])
    simp only [Exponents.set] at hr ⊢
    simp only [Exponents.update, if_neg (String.lt_asymm ht), if_neg hne, hr, List.cons_append]

/-- Setting the symbols of a sorted list one after the other only appends. -/
theorem Sorted.setAll {x y : Exponents} (h : Sorted (y ++ x)) :
    x.foldl (fun z p => z.set p.1 p.2) y = y ++ x := by
  induction x generalizing y with
  | nil => simp
  | cons p r ih =>
    have hlast : ∀ q ∈ y, q.1 < p.1 := fun q hq =>
      (List.pairwise_append.1 h).2.2 q hq p List.mem_cons_self
    rw [List.foldl_cons, set_of_forall_lt p.2 hlast, ih (by simpa using h)]
    simp

theorem Sorted.ofPairs {x : Exponents} (h : Sorted x) : Exponents.ofPairs x = x :=
  Sorted.setAll (y := []) h

end UnitCalculator.Exponents
