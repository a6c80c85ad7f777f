import UnitCalculator.Proofs.Grammar.Shape
import UnitCalculator.Proofs.Session.Sound
import UnitCalculator.Session.Line

/-!
Dimensional soundness. The dimension of a result is that of the term it is the value of, and there
is no result where dimensions do not fit.
-/

set_option autoImplicit false

namespace UnitCalculator

open Run Evaluate UnitCalculator.Units

theorem Quantity.toTerm_injective {p q : Quantity} (h : p.toTerm = q.toTerm) : p = q := by
  obtain ⟨a, u⟩ := p
  obtain ⟨b, v⟩ := q
  cases u with
  | none =>
    cases v with
    | none =>
      cases h
      rfl
    | some g => cases h
  | some f =>
    cases v with
    | none => cases h
    | some g =>
      cases h
      rfl

theorem carries_unitTerm {p : Option Fraction} (h : IsCanonical p) :
    Carries (unitTerm p) (dimensionOf p) := by
  cases p with
  | none => exact .absent
  | some f => exact .unit (.fraction h)

variable [Host]

def Evaluates (env : Environment) (t : Term) (q : Quantity) : Prop :=
  ((evaluate t).run.run (.start env)).1 = .ok (some q)

/-- The dimensions of terms. All operands of a sum have one dimension, and exponents have none. -/
inductive HasDimension (env : Environment) : Term → Dimension → Prop where
  | plain (a : Number) : HasDimension env (.number a .absent) fun _ => 0
  | literal {a : Number} {u : Term} :
      Written u → HasDimension env (.number a (.bracketed u)) (dimension u)
  | name {s : String} {q : Quantity} :
      env.lookup s = .ok q.toTerm → HasDimension env (.name s) (dimensionOf q.unit)
  | call {s : String} {ts : List Term} (d : Term → Dimension) :
      (∀ t ∈ ts, HasDimension env t (d t)) → HasDimension env (.call s ts) fun _ => 0
  | signed {o : Operator} {t : Term} {d : Dimension} :
      HasDimension env t d → HasDimension env (.signed o t) d
  | assignment {s : String} {r : Term} {d : Dimension} :
      HasDimension env r d → HasDimension env (.binary .equals (.name s) r) d
  | times {l r : Term} {d e : Dimension} : HasDimension env l d → HasDimension env r e →
      HasDimension env (.binary .times l r) fun s => d s + e s
  | slash {l r : Term} {d e : Dimension} : HasDimension env l d → HasDimension env r e →
      HasDimension env (.binary .slash l r) fun s => d s - e s
  | zeroPower {l r : Term} : (HasDimension env l fun _ => 0) → (HasDimension env r fun _ => 0) →
      HasDimension env (.binary .caret l r) fun _ => 0
  | power {l r : Term} {d : Dimension} {n : Int} : HasDimension env l d →
      (HasDimension env r fun _ => 0) → Evaluates env r ⟨.int n, none⟩ →
      HasDimension env (.binary .caret l r) fun s => n * d s
  | uniform {o : Operator} {l r : Term} {d : Dimension} : isUniform o = true →
      HasDimension env l d → HasDimension env r d → HasDimension env (.binary o l r) d

theorem Evaluates.unique {env : Environment} {t : Term} {p q : Quantity}
    (hp : Evaluates env t p) (hq : Evaluates env t q) : p = q := by
  rw [Evaluates, hp] at hq
  cases hq
  rfl

theorem HasDimension.unique {env : Environment} {t : Term} {d e : Dimension}
    (hd : HasDimension env t d) (he : HasDimension env t e) : d = e := by
  induction hd generalizing e with
  | plain a =>
    cases he
    rfl
  | literal _ =>
    cases he
    rfl
  | name hs =>
    cases he with
    | name hs' =>
      rw [hs] at hs'
      rw [Quantity.toTerm_injective (Except.ok.inj hs')]
  | call _ _ _ =>
    cases he
    rfl
  | signed _ ih =>
    cases he with
    | signed h => exact ih h
  | assignment _ ih =>
    cases he with
    | assignment h => exact ih h
    | uniform ho => cases ho
  | times _ _ ihl ihr =>
    cases he with
    | times hl hr => rw [ihl hl, ihr hr]
    | uniform ho => cases ho
  | slash _ _ ihl ihr =>
    cases he with
    | slash hl hr => rw [ihl hl, ihr hr]
    | uniform ho => cases ho
  | zeroPower _ _ ihl _ =>
    cases he with
    | zeroPower _ _ => rfl
    | power hl _ _ =>
      rw [← ihl hl]
      simp
    | uniform ho => cases ho
  | power _ _ hn ihl _ =>
    cases he with
    | zeroPower hl _ =>
      rw [ihl hl]
      simp
    | power hl _ hn' =>
      cases hn.unique hn'
      rw [ihl hl]
    | uniform ho => cases ho
  | uniform ho _ _ ihl _ =>
    cases he with
    | assignment _ | times _ _ | slash _ _ | zeroPower _ _ | power _ _ _ => cases ho
    | uniform _ hl _ => exact ihl hl

theorem Evaluates.of_ends {env env' : Environment} {t : Term} {q : Quantity}
    (h : (evaluate t).Ends env (.ok (some q)) env') : Evaluates env t q := h.result []

/-! Operations -/

theorem hasDimension_combined {env : Environment} {o : Operator} {l r : Term} {p q x : Quantity}
    (h : IsCombined p q x o) (hp : IsCanonical p.unit) (hq : IsCanonical q.unit)
    (hl : HasDimension env l (dimensionOf p.unit)) (hr : HasDimension env r (dimensionOf q.unit))
    (he : Evaluates env r q) :
    IsCanonical x.unit ∧ HasDimension env (.binary o l r) (dimensionOf x.unit) := by
  have hu := carries_unitTerm hp
  have hv := carries_unitTerm hq
  have huniform (ho : isUniform o = true) (hpq : p.unit = q.unit) (hxp : x.unit = p.unit) :
      IsCanonical x.unit ∧ HasDimension env (.binary o l r) (dimensionOf x.unit) := by
    rw [hxp]
    exact ⟨hp, .uniform ho hl (hpq ▸ hr)⟩
  cases o with
  | times =>
    obtain ⟨a, ha⟩ := h
    obtain ⟨hx, hd⟩ := (hu.multiply hv).isCanonical ha
    exact ⟨hx, hd ▸ .times hl hr⟩
  | slash =>
    obtain ⟨a, ha⟩ := h
    obtain ⟨hx, hd⟩ := (hu.divide hv).isCanonical ha
    exact ⟨hx, hd ▸ .slash hl hr⟩
  | caret =>
    obtain ⟨hq₀, h⟩ := h
    rw [hq₀] at hr
    obtain ⟨hp₀, hx₀⟩ | ⟨n, a, hn, ha⟩ := h
    · rw [hp₀] at hl
      rw [hx₀]
      exact ⟨isCanonical_none, .zeroPower hl hr⟩
    · obtain ⟨hx, hd⟩ := (hu.power n).isCanonical ha
      obtain ⟨b, v⟩ := q
      cases hq₀
      cases hn
      exact ⟨hx, hd ▸ .power hl hr he⟩
  | _ => exact huniform h.1 h.2.1 h.2.2

/-! Expressions -/

/-- Only commands have no value. A value has left the environment as it was, and has a canonical unit
of the dimension of the term. -/
def IsValue (env : Environment) (t : Term) : Value → Environment → Prop
  | none, _ => ∃ s ts, t = .command s ts
  | some q, env' => env' = env ∧ IsCanonical q.unit ∧ HasDimension env t (dimensionOf q.unit)

theorem secures_literal {env : Environment} (hs : env.Sound) (a : Number) (u : Term) (n : Nat) :
    Secures env (evaluateWithin n (.number a u)) fun v env' =>
      env' = env ∧ ∃ q, v = some q ∧ canonicalize a u = .ok q := by
  cases n with
  | zero => exact .fail _ hs
  | succ n =>
    rw [evaluateWithin_number]
    refine .after hs (.note _) fun _ _ => ?_
    refine .after hs (returns_checkHeight env _) fun _ _ => ?_
    exact .after hs (returns_canonical env a _) fun q hq => .pure hs ⟨rfl, q, rfl, hq⟩

theorem secures_number {env : Environment} (hs : env.Sound) {a : Number} {u : Term}
    (hu : LiteralUnit u) (n : Nat) :
    Secures env (evaluateWithin n (.number a u)) (IsValue env (.number a u)) := by
  refine (secures_literal hs a u n).weaken fun v env' hv => ?_
  obtain ⟨he, q, rfl, hq⟩ := hv
  cases hu with
  | absent =>
    cases hq
    exact ⟨he, isCanonical_none, .plain a⟩
  | bracketed hu =>
    obtain ⟨hc, hd⟩ := hu.isCanonical hq
    exact ⟨he, hc, hd ▸ .literal hu⟩

theorem secures_stored {env : Environment} (hs : env.Sound) {s : String} {q : Quantity}
    (hq : IsCanonical q.unit) (hl : env.lookup s = .ok q.toTerm) (n : Nat) :
    Secures env (evaluateWithin n q.toTerm) (IsValue env (.name s)) := by
  obtain ⟨a, p⟩ := q
  have ht : Quantity.toTerm ⟨a, p⟩ = .number a (unitTerm p) := by
    cases p with
    | none => rfl
    | some f => rfl
  rw [ht]
  refine (secures_literal hs a (unitTerm p) n).weaken fun v env' hv => ?_
  obtain ⟨he, x, rfl, hx⟩ := hv
  obtain ⟨hc, hd⟩ := (carries_unitTerm hq).isCanonical hx
  exact ⟨he, hc, hd ▸ .name hl⟩

theorem secures_argument {env : Environment} {s : String} {t : Term} {x : Run Value}
    (h : Secures env x (IsValue env t)) :
    Secures env (do return (← operand s (← x)).value.widened) fun _ env' =>
      env' = env ∧ ∃ d, HasDimension env t d := by
  refine h.bind fun v env' hs _ hv => .after hs (returns_operand env' s v) fun q hq => ?_
  subst hq
  obtain ⟨he, _, hd⟩ := hv
  exact .pure hs ⟨he, _, hd⟩

/-- Whatever comes out of an expression has the dimension of the expression. -/
theorem secures_expression {env : Environment} (hs : env.Sound) {t : Term} (ht : Expression t)
    {n : Nat} (hn : n ≤ Host.evaluation) : Secures env (evaluateWithin n t) (IsValue env t) := by
  -- on the levels, as a name is evaluated to a term that is no part of the expression
  induction n generalizing env t with
  | zero => exact .fail _ hs
  | succ n ih =>
    have hn' : n ≤ Host.evaluation := by omega
    cases ht with
    | number hu => exact secures_number hs hu (n + 1)
    | @signed o t ht =>
      rw [evaluateWithin_signed]
      refine .after hs (.note _) fun _ _ => ?_
      refine (ih hs ht hn').bind fun v env₁ hs₁ _ hv => ?_
      refine .after hs₁ (returns_sign env₁ o v) fun x hx => .pure hs₁ ?_
      obtain ⟨q, rfl, hu⟩ := hx
      obtain ⟨he, hc, hd⟩ := hv
      rw [IsValue, hu]
      exact ⟨he, hc, .signed hd⟩
    | @binary o l r ho hl hr =>
      rw [evaluateWithin_binary _ ho]
      refine .after hs (.note _) fun _ _ => ?_
      refine (ih hs hl hn').bind fun v env₁ hs₁ _ hv => ?_
      refine (ih hs₁ hr hn').bind fun w env₂ hs₂ he hw => ?_
      refine .after hs₂ (returns_binary env₂ o v w) fun x hx => .pure hs₂ ?_
      obtain ⟨p, q, rfl, rfl, hx⟩ := hx
      -- an operand that is a command may change the environment, but it has no value
      obtain ⟨rfl, hcp, hdp⟩ := hv
      obtain ⟨rfl, hcq, hdq⟩ := hw
      have hev : Evaluates env₂ r q := .of_ends ((evaluateWithin_approaches hn' r).ends_ok he)
      exact ⟨rfl, hasDimension_combined hx hcp hcq hdp hdq hev⟩
    | name s =>
      rw [evaluateWithin_name]
      refine .after hs (.note _) fun _ _ => ?_
      refine .after hs .environment fun e he => ?_
      refine .after hs (.orNameError _) fun t ht => ?_
      rw [he] at ht
      obtain ⟨q, rfl, hq⟩ := hs s t ht
      exact secures_stored hs hq ht n
    | @call s ts hts =>
      rw [evaluateWithin_call]
      refine .after hs (.note _) fun _ _ => ?_
      refine .after hs (returns_function env s _) fun f _ => ?_
      have hargs := Secures.mapM hs ts fun t ht => secures_argument (s := s) (ih hs (hts t ht) hn')
      refine hargs.bind fun as env₁ hs₁ _ has => ?_
      obtain ⟨rfl, has⟩ := has
      refine .after hs₁ (returns_apply env₁ s f as) fun x hx => .pure hs₁ ?_
      choose! d hd using has
      rw [IsValue, hx]
      exact ⟨rfl, isCanonical_none, .call d hd⟩
    | command s ts =>
      rw [evaluateWithin_command]
      refine .after hs (.note _) fun _ _ => ?_
      exact (secures_command hs s ts).bind fun _ _ hs₁ _ _ => .pure hs₁ ⟨s, ts, rfl⟩

end UnitCalculator
