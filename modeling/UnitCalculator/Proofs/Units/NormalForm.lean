import UnitCalculator.Proofs.Units.Reduction
import Mathlib.Logic.Function.Iterate

/-!
The normal form of a unit without powers. A step leaves a unit as it is exactly where no rule applies,
so steps come to an end, and they end in one quotient of two products at most. The order of the
factors is not normal; counting them does away with it.
-/

set_option autoImplicit false

namespace UnitCalculator.Units

theorem rewriteProduct_of_not {u v : Term} (hu : isQuotient u = false)
    (hv : isQuotient v = false) : rewriteProduct u v = .binary .times u v := by
  unfold rewriteProduct
  split
  · simp [isQuotient] at hu
  · simp [isQuotient] at hv
  · rfl

theorem rewriteStep_of_not {u : Term} (h : isReducible u = false) : rewriteStep u = u := by
  induction u with
  | binary op u v hu hv =>
    simp only [isReducible, Bool.or_eq_false_iff, Bool.and_eq_false_iff] at h
    obtain ⟨⟨hop, ru⟩, rv⟩ := h
    cases op with
    | times =>
      obtain ⟨qu, qv⟩ := hop.resolve_left (by decide)
      simp only [rewriteStep, hu ru, hv rv, rewriteProduct_of_not qu qv]
    | slash =>
      obtain ⟨qu, qv⟩ := hop.resolve_left (by decide)
      simp only [rewriteStep, hu ru, hv rv, rewriteQuotient_of_not qu qv]
    | _ => simp only [rewriteStep, hu ru, hv rv]
  | _ => rfl

theorem rewriteStep_eq_self_iff {u : Term} : rewriteStep u = u ↔ isReducible u = false := by
  refine ⟨fun h => ?_, rewriteStep_of_not⟩
  by_contra hr
  have hlt := strictlyEased_rewriteStep (Bool.not_eq_false _ ▸ hr)
  rw [h] at hlt
  unfold StrictlyEased at hlt
  omega

/-- The loop takes `n` steps that each change the unit, and sees that the next would not. -/
def StopsAfter (n : Nat) (u : Term) : Prop :=
  rewriteStep^[n + 1] u = rewriteStep^[n] u ∧
    ∀ m < n, rewriteStep^[m + 1] u ≠ rewriteStep^[m] u

theorem StopsAfter.step {n : Nat} {u : Term} (hu : rewriteStep u ≠ u)
    (h : StopsAfter n (rewriteStep u)) : StopsAfter (n + 1) u := by
  refine ⟨h.1, fun m hm => ?_⟩
  cases m with
  | zero => exact hu
  | succ m => exact h.2 m (by omega)

theorem exists_stopsAfter (u : Term) : ∃ n, StopsAfter n u ∧ reduce u = rewriteStep^[n] u := by
  induction u using reduce.induct with
  | case1 u hr ih =>
    obtain ⟨n, hn, he⟩ := ih
    have hne : rewriteStep u ≠ u := fun h => by simp [rewriteStep_eq_self_iff.1 h] at hr
    refine ⟨n + 1, hn.step hne, ?_⟩
    rw [reduce, if_pos hr, he]
    rfl
  | case2 u hr =>
    have hfixed := rewriteStep_of_not (Bool.eq_false_iff.2 hr)
    refine ⟨0, ⟨hfixed, fun m hm => absurd hm (Nat.not_lt_zero m)⟩, ?_⟩
    rw [reduce, if_neg hr]
    rfl

theorem reduce_of_not {u : Term} (h : isReducible u = false) : reduce u = u := by
  rw [reduce, if_neg (Bool.eq_false_iff.1 h)]

/-- Steps on a unit of symbols and integers under products and quotients come to an end. What they end
in is a product or a single quotient of products; above the bar less below it, every symbol counts in
it what it counted in the unit; and reducing it again changes nothing. -/
theorem reduce_normalizes {u : Term} (h : Flat u) :
    (∃ n, StopsAfter n u ∧ reduce u = rewriteStep^[n] u) ∧ Reduced (reduce u) ∧
      (∃ x y, counts (reduce u) = .ok (x, y) ∧ ∀ s, x.count s - y.count s = tally u s) ∧
        reduce (reduce u) = reduce u := by
  obtain ⟨x, y, hxy, -, -, hcount⟩ := counts_reduced h.reduced_reduce
  refine ⟨exists_stopsAfter u, h.reduced_reduce, ⟨x, y, hxy, fun s => ?_⟩, ?_⟩
  · rw [hcount, tally_reduce h]
  · exact reduce_of_not (isReducible_reduce u)

def nestedQuotient : Term :=
  .binary .slash (.binary .slash (.name "m") (.binary .slash (.name "g") (.name "s")))
    (.binary .slash (.name "s") (.name "m"))

/-- It takes two steps, as the first leaves a quotient below a product; the seconds cancel only in what
is counted. -/
theorem reduce_nestedQuotient : Flat nestedQuotient ∧
    reduce nestedQuotient =
      .binary .slash (.binary .times (.binary .times (.name "m") (.name "s")) (.name "m"))
        (.binary .times (.name "g") (.name "s")) ∧
      Reduced (reduce nestedQuotient) ∧
        ∃ x y, counts (reduce nestedQuotient) = .ok (x, y) ∧ x.count "m" - y.count "m" = 2 ∧
          x.count "s" - y.count "s" = 0 := by
  have hflat : Flat nestedQuotient :=
    ((Flat.symbol "m").slash ((Flat.symbol "g").slash (.symbol "s"))).slash
      ((Flat.symbol "s").slash (.symbol "m"))
  obtain ⟨-, hr, ⟨x, y, hxy, hcount⟩, -⟩ := reduce_normalizes hflat
  refine ⟨hflat, ?_, hr, x, y, hxy, (hcount "m").trans (by decide), (hcount "s").trans (by decide)⟩
  have hfirst : isReducible nestedQuotient = true := rfl
  have hsecond : isReducible (rewriteStep nestedQuotient) = true := rfl
  rw [reduce, if_pos hfirst, reduce, if_pos hsecond, reduce_of_not rfl]
  rfl

end UnitCalculator.Units
