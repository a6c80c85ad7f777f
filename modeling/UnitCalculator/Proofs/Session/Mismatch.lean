import UnitCalculator.Proofs.Session.Dimension

/-!
Operands that do not fit. Sums and their like want one dimension, and a power wants an exponent
without a unit, an integer if the base has one. Anything else is an error, and no term around it has
a dimension.
-/

set_option autoImplicit false

namespace UnitCalculator

open Run Evaluate UnitCalculator.Units

/-- Values that the operator refuses for their units, or for an exponent that is no integer. -/
def Mismatched : Operator → Value → Value → Prop
  | .caret, v, w => ∃ q, w = some q ∧
      (q.unit ≠ none ∨ (∀ n, q.value ≠ .int n) ∧ ∃ p, v = some p ∧ p.unit ≠ none)
  | o, v, w => isUniform o = true ∧
      ∃ p q, v = some p ∧ w = some q ∧ dimensionOf p.unit ≠ dimensionOf q.unit

/-- One of the values has an integer, as an exponent of its unit, that is too long to be written. -/
def HasLong (v w : Value) : Prop := ∃ q, (v = some q ∨ w = some q) ∧ ¬q.toTerm.Short

/-- An error of the evaluation, unless a value that its message or the trace has to show cannot be
written. -/
def IsRefusal (v w : Value) (f : Failure) : Prop :=
  f.kind = .eval ∨ f = .unwritten .tooLong ∧ HasLong v w

theorem IsRefusal.of_obstacle {v w : Value} {o : Obstacle} (h : o = .tooLong → HasLong v w) :
    IsRefusal v w o.failure := by
  cases o with
  | tooDeep => exact .inl rfl
  | tooLong => exact .inr ⟨rfl, h rfl⟩

theorem hasLong_of_unit {v w : Value} {q : Quantity} (hq : v = some q ∨ w = some q) {o : Obstacle}
    (ho : unitObstacle q.unit = some o) : HasLong v w := by
  refine ⟨q, hq, fun hs => ?_⟩
  rw [(Quantity.short_toTerm_iff.1 hs).2] at ho
  cases ho

theorem Mismatched.rhs {o : Operator} {v w : Value} (h : Mismatched o v w) :
    ∃ q, w = some q := by
  cases o with
  | caret =>
    obtain ⟨q, hq, _⟩ := h
    exact ⟨q, hq⟩
  | _ =>
    obtain ⟨_, _, q, _, hq, _⟩ := h
    exact ⟨q, hq⟩

/-- The computation ends in a failure with the property. -/
def Fails (E : Failure → Prop) {α : Type} (env : Environment) (x : Run α) : Prop :=
  ∃ f env', x.Ends env (.error (.failure f)) env' ∧ E f

namespace Fails

variable {α β : Type} {E : Failure → Prop} {env env' : Environment} {x : Run α} {f : α → Run β}

theorem first (h : Fails E env x) : Fails E env (x >>= f) := by
  obtain ⟨e, env₁, he, hk⟩ := h
  exact ⟨e, env₁, he.bind_error, hk⟩

theorem bind {a : α} (hx : x.Ends env (.ok a) env') (h : Fails E env' (f a)) :
    Fails E env (x >>= f) := by
  obtain ⟨e, env₁, he, hk⟩ := h
  exact ⟨e, env₁, hx.bind he, hk⟩

theorem result (h : Fails E env x) (tr : List String) :
    ∃ e, (x.run.run ⟨env, tr⟩).1 = .error (.failure e) ∧ E e := by
  obtain ⟨e, env', he, hk⟩ := h
  exact ⟨e, he.result tr, hk⟩

end Fails

/-! Parts of lines -/

theorem Expression.binary_part {t : Term} (ht : Expression t) {o : Operator} {l r : Term}
    (h : Term.Part (.binary o l r) t) : Expression l ∧ Expression r := by
  induction ht with
  | number _ => cases h
  | signed _ ih =>
    cases h with
    | operand h => exact ih h
  | binary _ hl hr ihl ihr =>
    cases h with
    | here => exact ⟨hl, hr⟩
    | left h => exact ihl h
    | right h => exact ihr h
  | name _ => cases h
  | call _ ih =>
    cases h with
    | argument ht h => exact ih _ ht h
  | command _ _ => cases h

theorem IsLine.binary_part {t : Term} (ht : IsLine t) {o : Operator} {l r : Term}
    (h : Term.Part (.binary o l r) t) : Expression l ∧ Expression r := by
  cases ht with
  | value ht => exact ht.binary_part h
  | assignment hl hr =>
    cases h with
    | here => exact ⟨hl, hr⟩
    | left h => exact hl.binary_part h
    | right h => exact hr.binary_part h

section Host

variable [Host]

theorem IsRefusal.of_error {v w : Value} {e : EvalError} (hk : e.isScaleFault = false)
    (h : ∀ o, e.obstacle = some o → HasLong v w) : IsRefusal v w e.failure := by
  cases ho : e.obstacle with
  | none =>
    rw [EvalError.failure_of_none ho]
    exact .inl (by simp [Failure.kind, hk])
  | some o =>
    rw [EvalError.failure_of_some ho]
    exact of_obstacle fun _ => h o ho

theorem Fails.fail {α : Type} {E : Failure → Prop} {env : Environment} {e : EvalError}
    (h : E e.failure) : Fails E env (failWith e : Run α) := ⟨_, env, .fail e env, h⟩

/-! One operation -/

theorem fails_uniform (env : Environment) (o : Operator)
    (f : Number → Number → Except Fault Number) {p q : Quantity}
    (h : dimensionOf p.unit ≠ dimensionOf q.unit) :
    Fails (IsRefusal (some p) (some q)) env (uniform o f p q) := by
  have hu : p.unit ≠ q.unit := fun hu => h (by rw [hu])
  refine .first ?_
  rw [sameUnit, if_neg hu]
  refine .fail (.of_error rfl fun ob ho => ?_)
  obtain ho | ⟨-, ho⟩ := Option.or_eq_some_iff.1 ho
  · exact hasLong_of_unit (.inl rfl) ho
  · exact hasLong_of_unit (.inr rfl) ho

theorem fails_power (env : Environment) {p q : Quantity}
    (h : q.unit ≠ none ∨ (∀ n, q.value ≠ .int n) ∧ p.unit ≠ none) :
    Fails (IsRefusal (some p) (some q)) env (Evaluate.power p q) := by
  unfold Evaluate.power
  cases hq : q.unit with
  | some u =>
    exact .fail (.of_error rfl fun o ho => hasLong_of_unit (.inr rfl) (o := o) (hq ▸ ho))
  | none =>
    obtain h | ⟨hn, hp⟩ := h
    · exact absurd hq h
    cases ha : p.value.pow q.value with
    | error e => exact .first (.fail (.inl rfl))
    | ok a =>
      refine .bind (.pure a env) ?_
      split
      · next h => exact absurd h hp
      · next u hu =>
        split
        · next n h => exact absurd h (hn n)
        · exact .fail (.of_error rfl fun o ho => hasLong_of_unit (.inl rfl) (o := o) (hu ▸ ho))

theorem fails_combine (env : Environment) {o : Operator} {p q : Quantity}
    (h : Mismatched o (some p) (some q)) :
    Fails (IsRefusal (some p) (some q)) env (combine o p q) := by
  cases o with
  | caret =>
    obtain ⟨_, hq, h⟩ := h
    cases hq
    refine fails_power env (h.imp_right fun h => ⟨h.1, ?_⟩)
    obtain ⟨_, hp, hu⟩ := h.2
    cases hp
    exact hu
  | plus | minus | percent | parallel =>
    obtain ⟨_, _, _, hp, hq, hd⟩ := h
    cases hp
    cases hq
    exact fails_uniform env _ _ hd
  | _ => cases h.1

theorem fails_binary (env : Environment) {o : Operator} {v w : Value} (h : Mismatched o v w) :
    Fails (IsRefusal v w) env (binary o v w) := by
  cases v with
  | none => exact .first (.fail (.inl rfl))
  | some p =>
    obtain ⟨q, rfl⟩ := h.rhs
    refine .bind (.pure p env) (.bind (.pure q env) ?_)
    have hc := fails_combine env h
    split
    · obtain hnote | ⟨-, ob, ho, hnote⟩ := note_ends (.operation o p q) env
      · exact .bind hnote hc
      · refine .first ⟨_, env, hnote, .of_obstacle fun hlong => ?_⟩
        obtain ⟨t, ht, ho⟩ := List.exists_of_findSome?_eq_some ho
        have hshort : ¬t.Short := fun hs => by
          cases hlong.symm.trans (hs.eq_tooDeep ho)
        obtain rfl | ht := List.mem_cons.1 ht
        · exact ⟨p, .inl rfl, hshort⟩
        · exact ⟨q, .inr rfl, List.mem_singleton.1 ht ▸ hshort⟩
    · exact hc

/-! Operands that are expressions -/

/-- With fewer levels an evaluation is the same or too deep. -/
theorem ends_within {n : Nat} (hn : n ≤ Host.evaluation) {t : Term} {env env' : Environment}
    {r : Except Stop Value} (h : (evaluate t).Ends env r env') (v w : Value) :
    Fails (IsRefusal v w) env (evaluateWithin n t) ∨ (evaluateWithin n t).Ends env r env' := by
  obtain ⟨r', env₁, he, h'⟩ := evaluateWithin_approaches hn t env
  obtain rfl | h' := h'
  · exact .inl ⟨_, env₁, he, .inl rfl⟩
  · obtain ⟨rfl, rfl⟩ := h.unique h'
    exact .inr he

theorem fails_mismatched {env env₁ env₂ : Environment} {o : Operator} {l r : Term} {v w : Value}
    (hl : (evaluate l).Ends env (.ok v) env₁) (hr : (evaluate r).Ends env₁ (.ok w) env₂)
    (h : Mismatched o v w) (hs : (Term.binary o l r).Short) {n : Nat} (hn : n ≤ Host.evaluation) :
    Fails (IsRefusal v w) env (evaluateWithin n (.binary o l r)) := by
  have ho : o ≠ .equals := by
    rintro rfl
    cases h.1
  cases n with
  | zero => exact .fail (.inl rfl)
  | succ n =>
    have hn' : n ≤ Host.evaluation := by omega
    rw [evaluateWithin_binary _ ho]
    obtain hnote | ⟨-, ob, ho, hnote⟩ := note_ends (.evaluation (.binary o l r)) env
    · refine .bind hnote ?_
      obtain hf | hv := ends_within hn' hl v w
      · exact .first hf
      refine .bind hv ?_
      obtain hf | hw := ends_within hn' hr v w
      · exact .first hf
      exact .bind hw (.first (fails_binary env₂ h))
    · obtain ⟨t, ht, ho⟩ := List.exists_of_findSome?_eq_some ho
      obtain rfl := List.mem_singleton.1 ht
      obtain rfl := hs.eq_tooDeep ho
      exact .first ⟨_, env, hnote, .inl rfl⟩

/-! Terms around operations -/

theorem HasDimension.binary_part {env : Environment} {t : Term} {d : Dimension}
    (ht : HasDimension env t d) {o : Operator} {l r : Term}
    (h : Term.Part (.binary o l r) t) : ∃ e, HasDimension env (.binary o l r) e := by
  have hbinary {o' : Operator} {l' r' : Term} {d' : Dimension}
      (hd : HasDimension env (.binary o' l' r') d')
      (ihl : Term.Part (.binary o l r) l' → ∃ e, HasDimension env (.binary o l r) e)
      (ihr : Term.Part (.binary o l r) r' → ∃ e, HasDimension env (.binary o l r) e)
      (h : Term.Part (.binary o l r) (.binary o' l' r')) :
      ∃ e, HasDimension env (.binary o l r) e := by
    cases h with
    | here => exact ⟨_, hd⟩
    | left h => exact ihl h
    | right h => exact ihr h
  induction ht with
  | plain _ => cases h
  | literal _ => cases h
  | name _ => cases h
  | call _ _ ih =>
    cases h with
    | argument ht h => exact ih _ ht h
  | signed _ ih =>
    cases h with
    | operand h => exact ih h
  | assignment hr ih => exact hbinary (.assignment hr) (fun h => nomatch h) ih h
  | times hl hr ihl ihr => exact hbinary (.times hl hr) ihl ihr h
  | slash hl hr ihl ihr => exact hbinary (.slash hl hr) ihl ihr h
  | zeroPower hl hr ihl ihr => exact hbinary (.zeroPower hl hr) ihl ihr h
  | power hl hr hn ihl ihr => exact hbinary (.power hl hr hn) ihl ihr h
  | uniform ho hl hr ihl ihr => exact hbinary (.uniform ho hl hr) ihl ihr h

theorem HasDimension.isValue {env env' : Environment} (hs : env.Sound) {t : Term} {d : Dimension}
    (hd : HasDimension env t d) (ht : Expression t) {v : Value}
    (h : (evaluate t).Ends env (.ok v) env') :
    ∃ q, v = some q ∧ env' = env ∧ IsCanonical q.unit ∧ dimensionOf q.unit = d := by
  obtain ⟨r, env₁, he, _, hr⟩ := secures_expression hs ht (Nat.le_refl Host.evaluation)
  obtain ⟨rfl, rfl⟩ := h.unique he
  have hv := hr v rfl
  cases v with
  | none =>
    obtain ⟨s, ts, rfl⟩ := hv
    cases hd
  | some q =>
    obtain ⟨he, hc, hd'⟩ := hv
    exact ⟨q, rfl, he, hc, hd'.unique hd⟩

theorem HasDimension.not_mismatched {env env₁ env₂ : Environment} (hs : env.Sound) {o : Operator}
    {l r : Term} {e : Dimension} (h : HasDimension env (.binary o l r) e) (hl : Expression l)
    (hr : Expression r) {v w : Value} (hv : (evaluate l).Ends env (.ok v) env₁)
    (hw : (evaluate r).Ends env₁ (.ok w) env₂) : ¬Mismatched o v w := by
  intro hm
  cases h with
  | assignment _ | times _ _ | slash _ _ => cases hm.1
  | zeroPower hl' hr' =>
    obtain ⟨p, rfl, rfl, hcp, hdp⟩ := hl'.isValue hs hl hv
    obtain ⟨q, rfl, _, hcq, hdq⟩ := hr'.isValue hs hr hw
    obtain ⟨_, hq, hm⟩ := hm
    cases hq
    obtain hm | ⟨_, _, hp, hu⟩ := hm
    · exact hm (hcq.eq_none hdq)
    · cases hp
      exact hu (hcp.eq_none hdp)
  | power hl' hr' hn =>
    obtain ⟨p, rfl, rfl, _⟩ := hl'.isValue hs hl hv
    obtain ⟨q, rfl, _⟩ := hr'.isValue hs hr hw
    obtain rfl := (Evaluates.of_ends hw).unique hn
    obtain ⟨_, hq, hm⟩ := hm
    cases hq
    obtain hm | hm := hm
    · exact hm rfl
    · exact hm.1 _ rfl
  | uniform ho hl' hr' =>
    obtain ⟨p, rfl, rfl, _, hdp⟩ := hl'.isValue hs hl hv
    obtain ⟨q, rfl, _, _, hdq⟩ := hr'.isValue hs hr hw
    cases o with
    | plus | minus | percent | parallel =>
      obtain ⟨_, _, _, hp, hq, hd⟩ := hm
      cases hp
      cases hq
      exact hd (hdp.trans hdq.symm)
    | _ => cases ho

end Host

end UnitCalculator
