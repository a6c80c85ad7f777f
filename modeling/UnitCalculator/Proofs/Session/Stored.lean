import UnitCalculator.Proofs.Session.Variables
import UnitCalculator.Proofs.Units.Cancelling
import UnitCalculator.Proofs.Units.NormalForm

/-!
Canonical quantities are settled. Making one canonical again changes nothing, so a value that is stored
is what every later reading of it comes to.
-/

set_option autoImplicit false

namespace UnitCalculator

open Run Evaluate UnitCalculator.Units

/-- What a number becomes with its unit, of whatever form that is, stays as it is from then on: as a unit
of the number, and of every number that is stored with it. A trace that has to show an integer that is
too long is all that keeps it from being read. -/
theorem canonicalize_idempotent [Host] {a : Number} {u : Term} {q : Quantity}
    (h : canonicalize a u = .ok q) :
    canonicalize q.value (unitTerm q.unit) = .ok q ∧
      ∀ (env : Environment) s b, env.lookup s = .ok (Quantity.toTerm ⟨b, q.unit⟩) →
        ((env.debug = true → (Quantity.toTerm ⟨b, q.unit⟩).Short) →
            (evaluate (.name s)).Ends env (.ok (some ⟨b, q.unit⟩)) env) ∧
          (env.debug = true → ¬(Quantity.toTerm ⟨b, q.unit⟩).Short →
            (evaluate (.name s)).Ends env (.error (.failure (.unwritten .tooLong))) env) := by
  have hc := isCanonical_of_canonicalize h
  obtain ⟨n, hn⟩ := Host.exists_evaluation_eq (m := 2) (by decide)
  refine ⟨canonicalize_canonical hc, fun env s b hs => ?_⟩
  rw [evaluate, hn]
  exact ⟨fun hshort => (ends_name _).2 _ _ hs (ends_toTerm (q := ⟨b, q.unit⟩) hc hshort n),
    fun hd hlong => (ends_name _).2 _ _ hs (ends_toTerm_unwritten hd hlong n)⟩

/-- A fraction whose entries are in no order, with a symbol twice, a compound one on both sides, the
number one, and exponents of zero and below. -/
def unsettledFraction : Fraction :=
  ⟨[("s", 2), ("km", -1), ("1", 3), ("s", 1)], [("g", 0), ("km", 2), ("m", -2)]⟩

def unsettledUnit : Term :=
  .binary .times (.binary .caret (.fraction unsettledFraction) (.int (-1))) (.name "mm")

def settledUnit : Fraction := ⟨[("km", 2)], [("s", 1)]⟩

theorem collect_millimetre : collect (.name "mm") = .ok ⟨some (1 * 0.001), [("m", 1)], []⟩ := by
  have hexpand : expandExponents 1 (.name "mm") = .ok (.name "mm") := rfl
  have hatomic : toAtomic maxPasses none (.name "mm") = .ok (some (1 * 0.001), .name "m") := rfl
  have hreduce : reduce (.name "m") = .name "m" := reduce_of_not rfl
  show ofWritten (.name "mm") = _
  rw [ofWritten, hexpand]
  simp only [bind, Except.bind, hatomic, hreduce]
  rfl

/-- The millimetre scales the number; the kilometres of the fraction do not. -/
theorem canonicalize_unsettledUnit : ∃ x, canonicalize (.int 6) unsettledUnit =
    .ok ⟨.real x, some settledUnit⟩ := by
  have hpower : collect (.binary .caret (.fraction unsettledFraction) (.int (-1))) =
      .ok ⟨none, [("g", 0), ("km", 2), ("m", -2)], [("1", 3), ("km", -1), ("s", 1)]⟩ := rfl
  have hcollect : collect unsettledUnit =
      .ok ⟨some (1 * (1 * 0.001)), [("km", 2)], [("1", 3), ("s", 1)]⟩ := by
    rw [unsettledUnit, collect, if_neg (by decide), hpower, collect_millimetre]
    rfl
  refine ⟨Float.ofInt 6 * (1 * (1 * 0.001)), ?_⟩
  rw [canonicalize, hcollect]
  · rfl
  · exact Term.noConfusion

theorem canonicalize_idempotent_unsettled : ∃ q, canonicalize (.int 6) unsettledUnit = .ok q ∧
    q.unit = some settledUnit ∧ canonicalize q.value (unitTerm q.unit) = .ok q ∧
      ∃ env : Environment, env.lookup "x" = .ok q.toTerm ∧
        (evaluate (.name "x")).Ends env (.ok (some q)) env := by
  obtain ⟨x, hx⟩ := canonicalize_unsettledUnit
  obtain ⟨hagain, hread⟩ := canonicalize_idempotent hx
  let q : Quantity := ⟨.real x, some settledUnit⟩
  let env : Environment := { Environment.fresh with bindings := [("x", some q.toTerm)] }
  have hlookup : env.lookup "x" = .ok q.toTerm := rfl
  exact ⟨q, hx, rfl, hagain, env, hlookup, (hread env "x" (.real x) hlookup).1 nofun⟩

end UnitCalculator
