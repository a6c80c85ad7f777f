import UnitCalculator.Proofs.Grammar.Shape
import UnitCalculator.Proofs.Session.Contract
import UnitCalculator.Proofs.Session.Dimension
import UnitCalculator.Proofs.Units.Normal

/-!
What evaluations return, and what can stop them. In an environment of normal values, the value of
a term of text is normal; the reasons for which there is none are few, and a scale factor is one of
them only where a literal of the term has a unit that makes it vanish.
-/

set_option autoImplicit false

namespace UnitCalculator

open Run Evaluate UnitCalculator.Units

/-! Why there is no value -/

/-- The errors that terms of text can lead to. -/
def EvalError.Possible : EvalError → Prop
  | .unit (.exponentTooLarge _) | .unit .scaleVanished => True
  | .unit _ | .unknownOperator _ | .unknownSign _ | .unitWithoutValue _ | .notEvaluable _
  | .unknownFunction _ | .unknownCommand _ => False
  | _ => True

def Vanishes (t : Term) : Prop :=
  ∃ a u, Term.Part (.number a (.bracketed u)) t ∧ ofWritten u = .error .scaleVanished

/-- The stops that a term of text can lead to. -/
def Stops (t : Term) : Stop → Prop
  | .exit => True
  | .failure (.eval e) => e.Possible ∧ (e = .unit .scaleVanished → Vanishes t)
  | .failure (.unwritten o) => o = .tooLong
  | .failure _ => False

theorem Stops.of_obstacle (t : Term) (o : Obstacle) : Stops t (.failure o.failure) := by
  cases o with
  | tooDeep => exact ⟨trivial, nofun⟩
  | tooLong => rfl

/-- An error is as good as the obstacle to its message. -/
theorem Stops.of_possible [Host] {t : Term} {e : EvalError} (h : e.Possible)
    (hs : e = .unit .scaleVanished → Vanishes t) : Stops t (.failure e.failure) := by
  cases ho : e.obstacle with
  | none => exact EvalError.failure_of_none ho ▸ ⟨h, hs⟩
  | some o => exact EvalError.failure_of_some ho ▸ of_obstacle t o

theorem Stops.part {s t : Term} (h : ∀ p, Term.Part p s → Term.Part p t) (x : Stop)
    (hx : Stops s x) : Stops t x := by
  match x with
  | .exit => trivial
  | .failure (.eval e) =>
    refine ⟨hx.1, fun he => ?_⟩
    obtain ⟨a, u, hp, hu⟩ := hx.2 he
    exact ⟨a, u, h _ hp, hu⟩
  | .failure (.unwritten o) => exact hx

/-! The environments of a session -/

/-- A value that is no number, or a normal one. -/
def IsNormalValue (v : Value) : Prop := ∀ q, v = some q → q.Normal

/-- The builtins are as they were, and every variable that has a value has a normal one. -/
structure Environment.Kept (limit : Int) (env : Environment) : Prop where
  constants : env.constants = builtinConstants
  functions : env.functions = fresh.functions
  commands : env.commands = fresh.commands
  maxDepth : env.maxDepth = limit
  bindings : ∀ s t, (s, some t) ∈ env.bindings → ∃ q : Quantity, t = q.toTerm ∧ q.Normal

namespace Environment

variable {limit : Int} {env env' : Environment}

theorem kept_fresh (debug : Bool) (limit : Int) :
    Kept limit { fresh with debug, maxDepth := limit } :=
  ⟨rfl, rfl, rfl, rfl, fun _ _ h => nomatch h⟩

theorem Kept.grammarNames (h : env.Kept limit) : env.grammarNames = fresh.grammarNames := by
  have hc : fresh.constants = builtinConstants := rfl
  unfold Environment.grammarNames isConstant isFunction isCommand
  rw [h.constants, h.functions, h.commands, hc]

theorem normal_of_builtin {s : String} {t : Term} (h : builtinConstants.get? s = some t) :
    ∃ q : Quantity, t = q.toTerm ∧ q.Normal := by
  have hall : ∀ p ∈ builtinConstants, ∃ q : Quantity, p.2 = q.toTerm ∧ q.Normal := by
    have hreal (x : Float) : ∃ q : Quantity, real x = q.toTerm ∧ q.Normal :=
      ⟨⟨.real x, none⟩, rfl, Number.bounded_real x, isNormal_none⟩
    have hi : ∃ q : Quantity, imaginaryUnit = q.toTerm ∧ q.Normal :=
      ⟨⟨.complex ⟨0, 1⟩, none⟩, rfl, Number.bounded_complex _, isNormal_none⟩
    simp only [builtinConstants, List.forall_mem_cons]
    exact ⟨hreal _, hreal _, hreal _, hi, hi, List.forall_mem_nil _⟩
  exact hall _ (Table.mem_of_get? h)

theorem Kept.lookup (h : env.Kept limit) {s : String} {t : Term} (ht : env.lookup s = .ok t) :
    ∃ q : Quantity, t = q.toTerm ∧ q.Normal := by
  rw [lookup_eq_ok, h.constants] at ht
  obtain ht | ⟨-, ht⟩ := ht
  · exact normal_of_builtin ht
  · exact h.bindings s t (Table.mem_of_get? ht)

theorem Kept.settings (h : env.Kept limit) (debug : Bool) (radix : Radix) (group : Nat) :
    Kept limit { env with debug, radix, group } :=
  ⟨h.constants, h.functions, h.commands, h.maxDepth, h.bindings⟩

theorem Kept.set (h : env.Kept limit) {s : String} {v : Option Term}
    (hv : ∀ t, v = some t → ∃ q : Quantity, t = q.toTerm ∧ q.Normal) :
    Kept limit { env with bindings := env.bindings.set s v } := by
  refine ⟨h.constants, h.functions, h.commands, h.maxDepth, fun u t hu => ?_⟩
  obtain hu | hu := Table.mem_set hu
  · obtain ⟨-, rfl⟩ := Prod.mk.inj hu
    exact hv t rfl
  · exact h.bindings u t hu

theorem Kept.declare (h : env.Kept limit) {s : String} (hd : env.declare s = .ok env') :
    env'.Kept limit := by
  unfold Environment.declare at hd
  split at hd
  · cases hd
  · split at hd
    · cases hd
      exact h
    · cases hd
      exact h.set nofun

theorem Kept.assign (h : env.Kept limit) {s : String} {q : Quantity} (hq : q.Normal)
    (ha : env.assign s q.toTerm = .ok env') : env'.Kept limit := by
  unfold Environment.assign at ha
  cases hc : env.checkAssignable s with
  | error e =>
    rw [hc] at ha
    cases ha
  | ok _ =>
    rw [hc] at ha
    cases ha
    refine h.set fun t ht => ?_
    cases ht
    exact ⟨q, rfl, hq⟩

end Environment

theorem Command.respected_kept (limit : Int) : Respected (Environment.Kept limit) :=
  ⟨fun _ _ _ h => h.settings _ _ _, fun h hd => h.declare hd⟩

/-! Operations -/

namespace Evaluate

theorem isNormal_combined {o : Operator} {p q x : Quantity} (h : IsCombined p q x o)
    (hp : IsNormal p.unit) (hq : IsNormal q.unit) : IsNormal x.unit := by
  have hu := carries_unitTerm hp.canonical
  have hv := carries_unitTerm hq.canonical
  cases o with
  | times =>
    obtain ⟨a, ha⟩ := h
    exact (hu.multiply hv).isNormal (hp.atomic.add hq.atomic) ha
  | slash =>
    obtain ⟨a, ha⟩ := h
    exact (hu.divide hv).isNormal (hp.atomic.sub hq.atomic) ha
  | caret =>
    obtain ⟨-, ⟨-, hx⟩ | ⟨n, a, -, ha⟩⟩ := h
    · exact hx ▸ isNormal_none
    · exact (hu.power n).isNormal (hp.atomic.mul n) ha
  | _ => exact h.2.2 ▸ hp

theorem error_of_ofWritten {u : Term} (hu : Written u) {e : UnitError}
    (h : ofWritten u = .error e) : (∃ n, e = .exponentTooLarge n) ∨ e = .scaleVanished := by
  by_cases hl : TooLarge u
  · obtain ⟨n, hn⟩ := ofWritten_tooLarge hu hl
    rw [hn] at h
    cases h
    exact .inl ⟨n, rfl⟩
  · obtain hs | ⟨c, hc, -⟩ := ofWritten_not_tooLarge hu hl
    · rw [hs] at h
      cases h
      exact .inr rfl
    · rw [hc] at h
      cases h

/-! Units of results are no reason to stop -/

theorem keepsNumber_unitTerm (p : Option Fraction) : KeepsNumber (unitTerm p) := by
  cases p with
  | none => exact keepsNumber_absent
  | some f => exact (unscaled_fraction f).keepsNumber

theorem keepsNumber_multiply (p q : Option Fraction) :
    KeepsNumber (Units.multiply (unitTerm p) (unitTerm q)) := by
  cases p with
  | none =>
    cases q with
    | none => exact keepsNumber_absent
    | some g => exact keepsNumber_unitTerm (some g)
  | some f =>
    cases q with
    | none => exact keepsNumber_unitTerm (some f)
    | some g => exact ((unscaled_fraction f).times rfl (unscaled_fraction g)).keepsNumber

theorem keepsNumber_divide (p q : Option Fraction) :
    KeepsNumber (Units.divide (unitTerm p) (unitTerm q)) := by
  cases q with
  | none =>
    cases p with
    | none => exact keepsNumber_absent
    | some f => exact keepsNumber_unitTerm (some f)
  | some g =>
    cases p with
    | none => exact (unscaled_one.slash rfl (unscaled_fraction g)).keepsNumber
    | some f => exact ((unscaled_fraction f).slash rfl (unscaled_fraction g)).keepsNumber

theorem keepsNumber_power (p : Option Fraction) (n : Int) :
    KeepsNumber (Units.power (unitTerm p) n) := by
  cases p with
  | none => exact keepsNumber_absent
  | some f =>
    have hpow (m : Int) : Unscaled (.binary .caret (.fraction f) (.int m)) :=
      (unscaled_fraction f).power rfl m
    have heq : Units.power (unitTerm (some f)) n = if n = 0 then .absent
        else if n < 0 then .binary .slash (.int 1) (.binary .caret (.fraction f) (.int (-n)))
        else .binary .caret (.fraction f) (.int n) := rfl
    rw [heq]
    split
    · exact keepsNumber_absent
    · split
      · exact (unscaled_one.slash rfl (hpow (-n))).keepsNumber
      · exact (hpow n).keepsNumber

variable [Host] {I : Environment → Prop} {t : Term}

theorem meets_checkHeight (u : Term) : Meets I (Stops t) (checkHeight u) fun _ => True := by
  unfold checkHeight
  split
  · exact .fail ⟨trivial, nofun⟩
  · exact .pure trivial

theorem meets_note (r : Remark) : Meets I (Stops t) (note r) fun _ => True :=
  .note fun o _ => Stops.of_obstacle t o

theorem meets_canonical {a : Number} {u : Term}
    (h : ∀ e, canonicalize a u = .error e → Stops t (.failure (EvalError.unit e).failure)) :
    Meets I (Stops t) (canonical a u) fun q => canonicalize a u = .ok q := by
  have hu : Meets I (Stops t) (orUnitError (canonicalize a u)) _ := .orUnitError h
  unfold canonical
  split
  · exact hu
  · exact (meets_note _).bind fun _ _ => hu

theorem meets_operand (s : String) (v : Value) :
    Meets I (Stops t) (operand s v) fun q => v = some q := by
  cases v with
  | none => exact .fail ⟨trivial, nofun⟩
  | some q => exact .pure rfl

theorem meets_orFault (x : Except Fault Number) :
    Meets I (Stops t) (orFault x) fun a => x = .ok a :=
  .orFault fun _ => ⟨trivial, nofun⟩

theorem meets_uniform {o : Operator} {f : Number → Number → Except Fault Number}
    {p q : Quantity} (hf : ∀ c, f p.value q.value = .ok c → c.Bounded) :
    Meets I (Stops t) (uniform o f p q) fun x => x.value.Bounded := by
  have hu : Meets I (Stops t) (sameUnit o p q) fun _ => True := by
    unfold sameUnit
    split
    · exact .pure trivial
    · exact .fail (Stops.of_possible trivial nofun)
  exact hu.bind fun _ _ => (meets_orFault _).bind fun a ha => .pure (hf a ha)

theorem meets_keepsNumber {u : Term} (hu : KeepsNumber u) (a : Number) :
    Meets I (Stops t) (canonical a u) fun q => q.value = a := by
  obtain ⟨p, hp⟩ := hu a
  refine (meets_canonical fun e he => ?_).value fun q hq => ?_
  · rw [hp] at he
    cases he
  · rw [hp] at hq
    cases hq
    rfl

theorem meets_multiply (p q : Quantity) :
    Meets I (Stops t) (multiply p q) fun x => x.value.Bounded :=
  (meets_orFault _).bind fun a ha =>
    (meets_keepsNumber (keepsNumber_multiply p.unit q.unit) a).value fun _ hx =>
      hx ▸ Number.bounded_mul ha

theorem meets_divide (p q : Quantity) :
    Meets I (Stops t) (divide p q) fun x => x.value.Bounded :=
  (meets_orFault _).bind fun a ha =>
    (meets_keepsNumber (keepsNumber_divide p.unit q.unit) a).value fun _ hx =>
      hx ▸ Number.bounded_div ha

theorem meets_power (p q : Quantity) :
    Meets I (Stops t) (power p q) fun x => x.value.Bounded := by
  unfold power
  split
  · exact .fail (Stops.of_possible trivial nofun)
  · refine (meets_orFault _).bind fun a ha => ?_
    have hb := Number.bounded_pow ha
    split
    · exact .pure hb
    · next u hu =>
      split
      · next n _ =>
        exact (meets_keepsNumber (keepsNumber_power (some u) n) a).value fun _ hx => hx ▸ hb
      · exact .fail (Stops.of_possible trivial nofun)

theorem meets_combine {o : Operator} (ho : o.IsInfix) {p q : Quantity} (hp : p.value.Bounded) :
    Meets I (Stops t) (combine o p q) fun x => x.value.Bounded := by
  cases o with
  | plus => exact meets_uniform fun _ => Number.bounded_add
  | minus => exact meets_uniform fun _ => Number.bounded_sub
  | percent => exact meets_uniform fun _ => Number.bounded_mod hp
  | parallel => exact meets_uniform fun _ => Number.bounded_parallel
  | times => exact meets_multiply p q
  | slash => exact meets_divide p q
  | caret => exact meets_power p q
  | _ => obtain h | h | h := ho <;> cases h

theorem meets_binary {o : Operator} (ho : o.IsInfix) {v w : Value} (hv : IsNormalValue v)
    (hw : IsNormalValue w) : Meets I (Stops t) (binary o v w) Quantity.Normal := by
  refine (meets_operand _ v).bind fun p hp => (meets_operand _ w).bind fun q hq => ?_
  have hc : Meets I (Stops t) (combine o p q) Quantity.Normal := by
    refine ((meets_combine ho (hv p hp).bounded).and_returns fun env =>
      returns_combine env o p q).value fun x hx => ?_
    exact ⟨hx.1, isNormal_combined hx.2 (hv p hp).unit (hw q hq).unit⟩
  split
  · exact (meets_note _).bind fun _ _ => hc
  · exact hc

theorem meets_sign {o : Operator} (ho : Grammar.isAdditive o = true) {v : Value}
    (hv : IsNormalValue v) : Meets I (Stops t) (sign o v) Quantity.Normal := by
  refine (meets_operand _ v).bind fun q hq => ?_
  cases o with
  | plus => exact .pure (hv q hq)
  | minus =>
    refine (meets_orFault _).bind fun a ha => .pure ?_
    exact ⟨Number.bounded_neg ha, (hv q hq).unit⟩
  | _ => cases ho

theorem meets_target (u : Term) : Meets I (Stops t) (target u) fun _ => True := by
  unfold target
  split
  · refine Meets.environment.bind fun e _ => ?_
    exact (Meets.orNameError fun _ => ⟨trivial, nofun⟩).bind fun _ _ => .pure trivial
  · exact .fail (Stops.of_possible trivial nofun)

theorem meets_apply (s : String) {f : Function} {as : List Number}
    (has : ∀ a ∈ as, a.Bounded) : Meets I (Stops t) (Evaluate.apply s f as) Quantity.Normal := by
  unfold Evaluate.apply
  split
  · next a ha => exact .pure ⟨Function.bounded_apply has ha, isNormal_none⟩
  · exact .fail ⟨trivial, nofun⟩

variable {limit : Int}

theorem meets_store (s : String) {v : Value} (hv : IsNormalValue v) :
    Meets (Environment.Kept limit) (Stops t) (store s v) Quantity.Normal := by
  refine (meets_operand _ v).bind fun q hq => ?_
  have hn : Quantity.Normal { q with value := q.value.widened } :=
    ⟨Number.bounded_widened _, (hv q hq).unit⟩
  refine Meets.environment.bind fun e he => ?_
  refine (Meets.orNameError fun _ => ⟨trivial, nofun⟩).bind fun env henv => ?_
  exact (Meets.setEnvironment (he.assign hn henv)).bind fun _ _ => .pure hn

theorem meets_function {s : String} (hs : Environment.fresh.isFunction s = true) (n : Nat) :
    Meets (Environment.Kept limit) (Stops t) (function s n) fun _ => True := by
  refine Meets.environment.bind fun e he => ?_
  split
  · next hf =>
    rw [he.functions] at hf
    rw [Environment.isFunction, Table.has, hf] at hs
    cases hs
  · next f _ =>
    split
    · split
      · exact .pure trivial
      · exact .fail ⟨trivial, nofun⟩
    · exact .pure trivial

theorem meets_afterEffect {I : Environment → Prop} {e : Command.Effect} (he : I e.1) :
    Meets I (Stops t) (afterEffect e) fun _ => True := by
  refine (Meets.setEnvironment he).bind fun _ _ => ?_
  cases e.2 with
  | none => exact .pure trivial
  | some c => exact .fail (Stops.of_possible trivial nofun)

theorem meets_command {s : String} (hs : Environment.fresh.isCommand s = true)
    (ts : List Token) :
    Meets (Environment.Kept limit) (Stops t) (command s ts) fun _ => True := by
  have hr := Command.respected_kept limit
  refine Meets.environment.bind fun e he => ?_
  split
  · next hc =>
    rw [he.commands] at hc
    rw [Environment.isCommand, Table.has, hc] at hs
    cases hs
  · exact meets_afterEffect (hr.setOutput he ts)
  · exact meets_afterEffect (hr.setDebug he ts)
  · exact meets_afterEffect (hr.declareAll he ts)
  · exact .throw trivial

/-! Terms -/

theorem meets_written {a : Number} (ha : a.Bounded) {u : Term} (hu : Written u)
    (ht : ofWritten u = .error .scaleVanished → Vanishes t) :
    Meets I (Stops t) (canonical a (.bracketed u)) Quantity.Normal := by
  refine (meets_canonical fun e he => ?_).value fun q hq => ?_
  · rw [canonicalize_bracketed hu] at he
    cases hc : ofWritten u with
    | ok c =>
      rw [hc] at he
      cases he
    | error e' =>
      rw [hc] at he
      cases he
      obtain ⟨n, rfl⟩ | rfl := error_of_ofWritten hu hc
      · exact Stops.of_possible trivial nofun
      · exact Stops.of_possible trivial fun _ => ht hc
  · refine ⟨?_, hu.isNormal hq⟩
    rw [canonicalize_bracketed hu] at hq
    cases hc : ofWritten u with
    | error e =>
      rw [hc] at hq
      cases hq
    | ok c =>
      rw [hc] at hq
      cases hq
      obtain ⟨f, x, y⟩ := c
      cases f with
      | none => exact ha
      | some f => exact Number.bounded_scale f a

theorem meets_literal {a : Number} {u : Term}
    (h : Meets I (Stops t) (canonical a u) Quantity.Normal) (n : Nat) :
    Meets I (Stops t) (evaluateWithin n (.number a u)) IsNormalValue := by
  cases n with
  | zero => exact .fail ⟨trivial, nofun⟩
  | succ n =>
    rw [evaluateWithin_number]
    refine (meets_note _).bind fun _ _ => (meets_checkHeight u).bind fun _ _ => ?_
    refine h.bind fun q hq => .pure fun x hx => ?_
    cases hx
    exact hq

theorem meets_number {a : Number} (ha : a.Bounded) {u : Term} (hu : LiteralUnit u) (n : Nat) :
    Meets I (Stops (.number a u)) (evaluateWithin n (.number a u)) IsNormalValue := by
  refine meets_literal ?_ n
  cases hu with
  | absent => exact .pure ⟨ha, isNormal_none⟩
  | @bracketed u hu => exact meets_written ha hu fun hv => ⟨a, u, .here, hv⟩

theorem meets_stored {q : Quantity} (hq : q.Normal) (n : Nat) :
    Meets I (Stops t) (evaluateWithin n q.toTerm) IsNormalValue := by
  have hu := keepsNumber_unitTerm q.unit
  have hc {x : Quantity} (hx : canonicalize q.value (unitTerm q.unit) = .ok x) : IsNormal x.unit :=
    (carries_unitTerm hq.unit.canonical).isNormal hq.unit.atomic hx
  have h : Meets I (Stops t) (canonical q.value (unitTerm q.unit)) Quantity.Normal :=
    ((meets_keepsNumber hu q.value).and_returns fun env => returns_canonical env _ _).value
      fun x hx => ⟨hx.1 ▸ hq.bounded, hc hx.2⟩
  obtain ⟨a, p⟩ := q
  cases p with
  | none | some f => exact meets_literal h n

theorem meets_expression {t : Term} (ht : Readable Environment.fresh.grammarNames t) (n : Nat) :
    Meets (Environment.Kept limit) (Stops t) (evaluateWithin n t) IsNormalValue := by
  -- on the levels, as a name is evaluated to a term that is no part of the expression
  induction n generalizing t with
  | zero => exact .fail ⟨trivial, nofun⟩
  | succ n ih =>
    have hpart {s : Term} (hs : Readable Environment.fresh.grammarNames s)
        (h : ∀ p, Term.Part p s → Term.Part p t) :
        Meets (Environment.Kept limit) (Stops t) (evaluateWithin n s) IsNormalValue :=
      (ih hs).stop (Stops.part h)
    cases ht with
    | number ha hu _ => exact meets_number ha hu (n + 1)
    | @signed o s ho hs =>
      rw [evaluateWithin_signed]
      refine (meets_note _).bind fun _ _ => ?_
      refine (hpart hs fun _ => .operand).bind fun v hv => ?_
      refine (meets_sign ho hv).bind fun x hx => .pure fun y hy => ?_
      cases hy
      exact hx
    | @binary o l r ho hl hr =>
      rw [evaluateWithin_binary _ ho.ne_equals]
      refine (meets_note _).bind fun _ _ => ?_
      refine (hpart hl fun _ => .left).bind fun v hv => ?_
      refine (hpart hr fun _ => .right).bind fun w hw => ?_
      refine (meets_binary ho hv hw).bind fun x hx => .pure fun y hy => ?_
      cases hy
      exact hx
    | name s =>
      rw [evaluateWithin_name]
      refine (meets_note _).bind fun _ _ => Meets.environment.bind fun e he => ?_
      refine (Meets.orNameError fun _ => ⟨trivial, nofun⟩).bind fun u hu => ?_
      obtain ⟨q, rfl, hq⟩ := he.lookup hu
      exact meets_stored hq n
    | @call s ts hs hts =>
      rw [evaluateWithin_call]
      refine (meets_note _).bind fun _ _ => (meets_function hs _).bind fun f _ => ?_
      have hargs : Meets (Environment.Kept limit) (Stops (.call s ts))
          (ts.mapM fun t => do return (← operand s (← evaluateWithin n t)).value.widened)
          fun as => ∀ a ∈ as, a.Bounded := by
        refine .mapM fun u hu => ?_
        refine (hpart (hts u hu) fun _ => .argument hu).bind fun v _ => ?_
        exact (meets_operand s v).bind fun q _ => .pure (Number.bounded_widened _)
      refine hargs.bind fun as has => ?_
      refine (meets_apply s has).bind fun x hx => .pure fun y hy => ?_
      cases hy
      exact hx
    | @command s ts hs _ =>
      rw [evaluateWithin_command]
      refine (meets_note _).bind fun _ _ => (meets_command hs ts).bind fun _ _ => ?_
      exact .pure nofun

theorem meets_line {t : Term} (ht : ReadableLine Environment.fresh.grammarNames t) (n : Nat) :
    Meets (Environment.Kept limit) (Stops t) (evaluateWithin n t) IsNormalValue := by
  cases ht with
  | value ht => exact meets_expression ht n
  | @assignment l r hl hr =>
    cases n with
    | zero => exact .fail ⟨trivial, nofun⟩
    | succ n =>
      rw [evaluateWithin_equals]
      refine (meets_note _).bind fun _ _ => (meets_target l).bind fun s _ => ?_
      have hr' : Meets (Environment.Kept limit) (Stops (.binary .equals l r))
          (evaluateWithin n r) IsNormalValue :=
        (meets_expression hr n).stop (Stops.part fun _ => .right)
      refine hr'.bind fun v hv => ?_
      refine (meets_store s hv).bind fun x hx => .pure fun y hy => ?_
      cases hy
      exact hx

end Evaluate

end UnitCalculator
