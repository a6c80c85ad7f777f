import UnitCalculator.Proofs.Session.Variables
import UnitCalculator.Proofs.Units.Cancelling

/-!
Exponents of units grow without a bound. A variable that is squared line by line holds a unit whose
exponent each line doubles, until neither an error nor a trace can show it: where there has to be one,
the line fails with the host.
-/

set_option autoImplicit false

namespace UnitCalculator

open Run Evaluate UnitCalculator.Units

/-! Metres to some power -/

def metres (x : Float) (e : Int) : Quantity := ⟨.real x, some ⟨[("m", e)], []⟩⟩

theorem obstacle_metres {x : Float} {e : Int} (h : intObstacle e = some .tooLong) :
    unitObstacle (metres x e).unit = some .tooLong := by
  rw [metres, unitObstacle, Fraction.obstacle, List.append_nil, List.findSome?_cons, h]

theorem isCanonical_metres {e : Int} (he : 0 < e) (x : Float) : IsCanonical (metres x e).unit := by
  have hm : "m" ≠ dimensionless := by decide
  have hc : Fraction.Canonical ⟨[("m", e)], []⟩ :=
    { nonempty := .inl (List.cons_ne_nil _ _)
      sorted_numerator := List.pairwise_singleton _ _
      sorted_denominator := .nil
      positive := List.forall_mem_singleton.2 he
      apart := fun _ _ _ h => nomatch h
      atomic := List.forall_mem_singleton.2 ⟨hm, rfl⟩ }
  exact hc.isNormal.canonical

theorem canonicalize_squared {e : Int} (he : 0 < e) (x : Float) (a : Number) :
    canonicalize a (Units.multiply (unitTerm (metres x e).unit) (unitTerm (metres x e).unit)) =
      .ok ⟨a, (metres x (e + e)).unit⟩ := by
  have hc := isCanonical_metres he x
  have hsum : IsCanonical (metres x (e + e)).unit := isCanonical_metres (by omega) x
  obtain ⟨p, hp⟩ := keepsNumber_multiply (metres x e).unit (metres x e).unit a
  obtain ⟨hp', hd⟩ := ((carries_unitTerm hc).multiply (carries_unitTerm hc)).isCanonical hp
  have hdouble : dimensionOf (metres x (e + e)).unit =
      fun s => dimensionOf (metres x e).unit s + dimensionOf (metres x e).unit s := by
    funext s
    simp only [metres, dimensionOf, Exponents.count, Exponents.count?]
    split <;> simp
  have hu : p = (metres x (e + e)).unit :=
    (hp'.denotes.eq_iff hsum.denotes).2 (hd.trans hdouble.symm)
  rw [hp, hu]

/-! Lines about the variable -/

abbrev holding (q : Quantity) : Environment := withX (some q.toTerm)

theorem of_debug_withX {v : Option Term} {P : Prop} (h : (withX v).debug = true) : P := by cases h

def squaring : List Char := "x=x*x".toList

theorem tokenize_squaring : tokenize .standard squaring =
    .ok [.ident "x", .op .equals, .ident "x", .op .times, .ident "x"] := by
  refine tokenize_cons rfl rfl (tokenize_cons rfl rfl (tokenize_cons rfl rfl ?_))
  exact tokenize_cons rfl rfl (tokenize_cons rfl rfl (tokenize_nil _))

theorem tokenize_metre : tokenize .standard "x=1[m]".toList = .ok [.ident "x", .op .equals, .int 1,
    .op .openBracket, .ident "m", .op .closeBracket] := by
  refine tokenize_cons rfl rfl (tokenize_cons rfl rfl (tokenize_cons rfl rfl ?_))
  exact tokenize_cons rfl rfl (tokenize_cons rfl rfl (tokenize_cons rfl rfl (tokenize_nil _)))

section Host

variable [Host] {e : Int} (he : 0 < e) (x : Float)

include he

theorem ends_read (n : Nat) : (evaluateWithin (n + 2) (.name "x")).Ends (holding (metres x e))
    (.ok (some (metres x e))) (holding (metres x e)) :=
  (ends_name (n + 1)).2 _ _ rfl (ends_toTerm (isCanonical_metres he x) of_debug_withX n)

theorem evaluates_read : Evaluates (holding (metres x e)) (.name "x") (metres x e) := by
  obtain ⟨n, hn⟩ := Host.exists_evaluation_eq (m := 2) (by decide)
  have h := ends_read he x n
  rw [← hn] at h
  exact .of_ends h

theorem runLine_squaring : (runLine .standard (holding (metres x e)) squaring).1 =
      .ok (some (metres (x * x) (e + e))) ∧
    (holding (metres x e)).after .standard squaring = holding (metres (x * x) (e + e)) := by
  let env := holding (metres x e)
  let q := metres x e
  obtain ⟨n, hn⟩ := Host.exists_evaluation_eq (m := 4) (by decide)
  have hread : (evaluateWithin (n + 2) (.name "x")).Ends env (.ok (some q)) env := ends_read he x n
  have hvalue : (orFault (q.value.mul q.value)).Ends env (.ok (.real (x * x))) env :=
    .pure (Number.real (x * x)) env
  have hmultiply : (combine .times q q).Ends env (.ok (metres (x * x) (e + e))) env :=
    hvalue.bind (ends_canonical (canonicalize_squared he x _) of_debug_withX)
  have hbinary : (binary .times (some q) (some q)).Ends env (.ok (metres (x * x) (e + e))) env :=
    Ends.bind (.pure q env) (Ends.bind (.pure q env) (Ends.bind (.note of_debug_withX) hmultiply))
  have hproduct : (evaluateWithin (n + 3) (.binary .times (.name "x") (.name "x"))).Ends env
      (.ok (some (metres (x * x) (e + e)))) env := by
    rw [evaluateWithin_binary _ (by decide)]
    exact Ends.bind (.note of_debug_withX) (hread.bind (hread.bind (hbinary.bind (.pure _ env))))
  have htarget : (target (.name "x")).Ends env (.ok "x") env :=
    Ends.bind (.environment env) (Ends.bind (.pure () env) (.pure "x" env))
  refine runLine_of_ends (ends_calculate tokenize_squaring (List.cons_ne_nil _ _)
    (t := .binary .equals (.name "x") (.binary .times (.name "x") (.name "x"))) rfl ?_)
  rw [evaluate, hn, evaluateWithin_equals]
  exact Ends.bind (.note of_debug_withX)
    (htarget.bind (hproduct.bind ((ends_store rfl _).bind (.pure _ _))))

/-- Each line doubles the exponent. -/
theorem afterAll_squaring (n : Nat) : ∃ y, (holding (metres x e)).afterAll .standard
    (List.replicate n squaring) = holding (metres y (e * 2 ^ n)) := by
  induction n generalizing x e with
  | zero => exact ⟨x, by rw [pow_zero, mul_one]; rfl⟩
  | succ n ih =>
    obtain ⟨y, hy⟩ := ih (e := e + e) (by omega) (x * x)
    refine ⟨y, ?_⟩
    rw [List.replicate_succ, Environment.afterAll, List.foldl_cons, (runLine_squaring he x).2]
    rw [pow_succ', ← mul_assoc, mul_two]
    exact hy

/-- The sum of a power of a metre and a plain number is an error, unless the error has to show an
exponent that is too long. -/
theorem ends_long_sum (hlong : intObstacle e = some .tooLong) :
    (evaluate (.binary .plus (.name "x") (.int 1))).Ends (holding (metres x e))
      (.error (.failure (.unwritten .tooLong))) (holding (metres x e)) := by
  let env := holding (metres x e)
  let q := metres x e
  obtain ⟨n, hn⟩ := Host.exists_evaluation_eq (m := 3) (by decide)
  have hread : (evaluateWithin (n + 2) (.name "x")).Ends env (.ok (some q)) env := ends_read he x n
  have hone : (evaluateWithin (n + 2) (.int 1)).Ends env (.ok (some ⟨.int 1, none⟩)) env :=
    ends_toTerm (q := ⟨.int 1, none⟩) isCanonical_none of_debug_withX (n + 1)
  have hobstacle : (EvalError.incompatibleUnits .plus q.unit none).obstacle = some .tooLong := by
    rw [EvalError.obstacle, obstacle_metres hlong]
    rfl
  have hunits : (sameUnit .plus q ⟨.int 1, none⟩).Ends env
      (.error (.failure (.unwritten .tooLong))) env := by
    have hfail := Ends.fail (α := Option Fraction) (.incompatibleUnits .plus q.unit none) env
    rw [EvalError.failure_of_some hobstacle] at hfail
    exact hfail
  have hbinary : (binary .plus (some q) (some ⟨.int 1, none⟩)).Ends env
      (.error (.failure (.unwritten .tooLong))) env :=
    Ends.bind (.pure q env) (Ends.bind (.pure _ env) (Ends.bind (.note of_debug_withX) hunits.bind_error))
  rw [evaluate, hn, evaluateWithin_binary _ (by decide)]
  exact Ends.bind (.note of_debug_withX) (hread.bind (hone.bind hbinary.bind_error))

omit he

theorem evaluates_one (v : Option Term) : Evaluates (withX v) (.int 1) ⟨.int 1, none⟩ := by
  obtain ⟨n, hn⟩ := Host.exists_evaluation_eq (m := 1) (by decide)
  have h : (evaluateWithin (n + 1) (.int 1)).Ends (withX v) (.ok (some ⟨.int 1, none⟩)) (withX v) :=
    ends_toTerm (q := ⟨.int 1, none⟩) isCanonical_none of_debug_withX n
  rw [← hn] at h
  exact .of_ends h

/-! Sessions -/

theorem after_declaration : Environment.fresh.after .standard "var(x)".toList = withX none := by
  obtain ⟨n, hn⟩ := Host.exists_evaluation_eq (m := 1) (by decide)
  have hcommand : (command "var" [.ident "x"]).Ends .fresh (.ok ()) (withX none) :=
    fun tr => ⟨tr, rfl⟩
  refine (runLine_declaration .fresh none ?_ rfl).2
  rw [evaluate, hn, evaluateWithin_command]
  exact Ends.bind (.note fun hd => by cases hd) (hcommand.bind (.pure none _))

theorem after_metre :
    (withX none).after .standard "x=1[m]".toList = holding (metres (Float.ofInt 1) 1) := by
  let metre : Quantity := ⟨.int 1, some ⟨[("m", 1)], []⟩⟩
  obtain ⟨n, hn⟩ := Host.exists_evaluation_eq (m := 2) (by decide)
  have hlow : (Term.bracketed (.name "m")).height ≤ Host.evaluation :=
    (by decide : 2 ≤ 100).trans Host.evaluation_ge
  have hvalue : (evaluateWithin (n + 1) (.number (.int 1) (.bracketed (.name "m")))).Ends
      (withX none) (.ok (some metre)) (withX none) :=
    ends_number (canonicalize_symbol (by decide) rfl _) hlow of_debug_withX n
  have htarget : (target (.name "x")).Ends (withX none) (.ok "x") (withX none) :=
    Ends.bind (.environment _) (Ends.bind (.pure () _) (.pure "x" _))
  have hline : (evaluate (.binary .equals (.name "x") (.number (.int 1) (.bracketed (.name "m"))))).Ends
      (withX none) (.ok (some (metres (Float.ofInt 1) 1))) (holding (metres (Float.ofInt 1) 1)) := by
    rw [evaluate, hn, evaluateWithin_equals]
    exact Ends.bind (.note of_debug_withX)
      (htarget.bind (hvalue.bind ((ends_store rfl metre).bind (.pure _ _))))
  exact (runLine_of_ends (ends_calculate tokenize_metre (List.cons_ne_nil _ _) rfl hline)).2

def growing (n : Nat) : List (List Char) :=
  "var(x)".toList :: "x=1[m]".toList :: List.replicate n squaring

theorem afterAll_growing (n : Nat) :
    ∃ y, Environment.fresh.afterAll .standard (growing n) = holding (metres y (2 ^ n)) := by
  obtain ⟨y, hy⟩ := afterAll_squaring (e := 1) (by decide) (Float.ofInt 1) n
  rw [one_mul] at hy
  refine ⟨y, ?_⟩
  rw [growing, Environment.afterAll, List.foldl_cons, List.foldl_cons, after_declaration,
    after_metre]
  exact hy

end Host

/-! Exponents that are too long -/

theorem intObstacle_two_pow {k : Nat} (h : Literal.decimalDigitLimit ≤ 3 * k) :
    intObstacle (2 ^ (10 * k)) = some .tooLong := by
  have hlimit : 10 ^ Literal.decimalDigitLimit ≤ 2 ^ (10 * k) := calc
    10 ^ Literal.decimalDigitLimit ≤ 10 ^ (3 * k) := Nat.pow_le_pow_right (by decide) h
    _ = (10 ^ 3) ^ k := Nat.pow_mul 10 3 k
    _ ≤ (2 ^ 10) ^ k := Nat.pow_le_pow_left (by decide) k
    _ = 2 ^ (10 * k) := (Nat.pow_mul 2 10 k).symm
  rw [intObstacle, Int.natAbs_pow]
  refine if_pos (Nat.not_le.1 fun hle => Nat.not_lt.2 hlimit ?_)
  exact (Nat.length_toDigits_le_iff (by decide) (by decide)).1 hle

theorem exists_long : ∃ n, intObstacle (2 ^ (n + 1)) = some .tooLong :=
  ⟨10 * 1433 + 9, intObstacle_two_pow (k := 1433 + 1) (by decide)⟩

/-- Squared often enough, a length has no sum with a plain number, and the error that says so cannot
be written. -/
theorem long_sum_unwritten : ∃ env q, Reachable .standard env ∧
    env.maxDepth = Environment.defaultDepth ∧ Evaluates env (.name "x") q ∧
      Evaluates env (.int 1) ⟨.int 1, none⟩ ∧ Mismatched .plus (some q) (some ⟨.int 1, none⟩) ∧
        IsParsed .standard (.binary .plus (.name "x") (.int 1)) ∧
          ((evaluate (.binary .plus (.name "x") (.int 1))).run.run (.start env)).1 =
            .error (.failure (.unwritten .tooLong)) := by
  obtain ⟨n, hlong⟩ := exists_long
  obtain ⟨y, hy⟩ := afterAll_growing (n + 1)
  have hpos : (0 : Int) < 2 ^ (n + 1) := Int.pow_pos (by decide)
  have hs : Reachable .standard .fresh := .start false Environment.defaultDepth
  have hr := hs.afterAll (growing (n + 1))
  rw [hy] at hr
  have hunits : dimensionOf (metres y (2 ^ (n + 1))).unit ≠ dimensionOf none := fun h => by
    have hm : (2 : Int) ^ (n + 1) - 0 = 0 := congrFun h "m"
    omega
  have hts : tokenize .standard "x+1".toList = .ok [.ident "x", .op .plus, .int 1] :=
    tokenize_cons rfl rfl (tokenize_cons rfl rfl (tokenize_cons rfl rfl (tokenize_nil _)))
  exact ⟨_, _, hr, rfl, evaluates_read hpos y, evaluates_one _, ⟨rfl, _, _, rfl, rfl, hunits⟩,
    ⟨Environment.fresh.grammarNames, Environment.defaultDepth, _, _, hts, rfl⟩,
    (ends_long_sum hpos y hlong).result []⟩

end UnitCalculator
