import UnitCalculator.Proofs.Session.Commands
import UnitCalculator.Proofs.Session.Contract
import UnitCalculator.Proofs.Session.Levels

/-!
Invariants of sessions. Only commands and assignments change an environment, and no assignment stores
an integer. So what these two keep, every line keeps, however it ends.
-/

set_option autoImplicit false

namespace UnitCalculator

open Run Evaluate

def Number.IsWide : Number → Prop
  | .int _ => False
  | .real _ | .complex _ => True

theorem Number.isWide_widened (a : Number) : a.widened.IsWide := by
  cases a with
  | int n | real x | complex z => trivial

/-- Commands keep the property, and so do assignments of floats and complex numbers. -/
structure Lasting (P : Environment → Prop) : Prop extends Command.Respected P where
  assign {env : Environment} {s : String} {q : Quantity} :
    P env → env.checkAssignable s = .ok () → q.value.IsWide →
      P { env with bindings := env.bindings.set s (some q.toTerm) }

/-- A property of places survives a declaration if it survives a new place. -/
theorem Lasting.of_set {P : Environment → Prop}
    (hsettings : ∀ {env : Environment} (debug : Bool) (radix : Radix) (group : Nat), P env →
      P { env with debug, radix, group })
    (hplace : ∀ {env : Environment} {s : String}, P env → env.isConstant s = false →
      env.isVariable s = false → P { env with bindings := env.bindings.set s none })
    (hvalue : ∀ {env : Environment} {s : String} {q : Quantity}, P env →
      env.checkAssignable s = .ok () → q.value.IsWide →
        P { env with bindings := env.bindings.set s (some q.toTerm) }) : Lasting P where
  settings := hsettings
  declare := by
    intro env env' s hp hd
    unfold Environment.declare at hd
    split at hd
    · cases hd
    · next hc =>
      split at hd
      · cases hd
        exact hp
      · next hv =>
        cases hd
        exact hplace hp (Bool.eq_false_iff.2 hc) (Bool.eq_false_iff.2 hv)
  assign := hvalue

theorem Environment.isVariable_set {env : Environment} {s x : String} {v : Option Term} :
    isVariable { env with bindings := env.bindings.set s v } x = true ↔
      x = s ∨ env.isVariable x = true := by
  unfold isVariable Table.has
  rw [Table.get?_set]
  by_cases h : x = s
  · simp [h]
  · simp [h]

theorem lasting_isVariable (x : String) : Lasting fun env => env.isVariable x = true :=
  .of_set (fun _ _ _ h => h) (fun h _ _ => Environment.isVariable_set.2 (.inr h))
    fun h _ _ => Environment.isVariable_set.2 (.inr h)

/-! What computations keep -/

/-- Begun where the property holds, the computation leaves an environment where it does, however it
ends. -/
def Keeps (P : Environment → Prop) {α : Type} (x : Run α) : Prop :=
  Meets P (fun _ => True) x fun _ => True

namespace Keeps

variable {α β : Type} {P : Environment → Prop} {x : Run α}

theorem pure (a : α) : Keeps P (Pure.pure a : Run α) := Meets.pure trivial

theorem throw (s : Stop) : Keeps P (throw s : Run α) := Meets.throw trivial

theorem fail [Host] (e : EvalError) : Keeps P (failWith e : Run α) := Meets.fail trivial

theorem bind {f : α → Run β} (hx : Keeps P x) (hf : ∀ a, Keeps P (f a)) :
    Keeps P (x >>= f) := Meets.bind hx fun a _ => hf a

theorem of_returns {Q : Environment → α → Prop} (h : ∀ env, Returns env x (Q env)) :
    Keeps P x := Meets.of_returns h

theorem mapM {f : α → Run β} (as : List α) (h : ∀ a, Keeps P (f a)) : Keeps P (as.mapM f) :=
  (Meets.mapM fun a _ => h a).value fun _ _ => trivial

end Keeps

namespace Lasting

theorem of_assign {P : Environment → Prop} (hP : Lasting P) {env env' : Environment} {s : String}
    {q : Quantity} (hp : P env) (hq : q.value.IsWide) (h : env.assign s q.toTerm = .ok env') :
    P env' := by
  unfold Environment.assign at h
  cases hc : env.checkAssignable s with
  | error e =>
    rw [hc] at h
    cases h
  | ok _ =>
    rw [hc] at h
    cases h
    exact hP.assign hp hc hq

variable [Host] {P : Environment → Prop} (hP : Lasting P)

theorem afterEffect {e : Command.Effect} (he : P e.1) : Keeps P (afterEffect e) := by
  refine (Meets.setEnvironment he).bind fun _ _ => ?_
  cases e.2 with
  | none => exact Keeps.pure ()
  | some c => exact Keeps.fail _

include hP

theorem command (s : String) (ts : List Token) : Keeps P (Evaluate.command s ts) := by
  refine Meets.environment.bind fun env hp => ?_
  split
  · exact Keeps.fail _
  · exact afterEffect (hP.setOutput hp ts)
  · exact afterEffect (hP.setDebug hp ts)
  · exact afterEffect (hP.declareAll hp ts)
  · exact Keeps.throw _

theorem store (s : String) (v : Value) : Keeps P (Evaluate.store s v) := by
  refine (Keeps.of_returns fun env => returns_operand env _ v).bind fun q => ?_
  refine Meets.environment.bind fun env hp => ?_
  refine (Meets.orNameError fun _ => trivial).bind fun env' he => ?_
  have hp' := hP.of_assign hp (Number.isWide_widened q.value) he
  exact (Meets.setEnvironment hp').bind fun _ _ => Keeps.pure _

theorem evaluateWithin (n : Nat) (t : Term) : Keeps P (UnitCalculator.evaluateWithin n t) := by
  -- on the levels, as a name is evaluated to a term that is no part of it
  induction n generalizing t with
  | zero => exact .fail _
  | succ n ih =>
    have hnote (r : Remark) : Keeps P (note r) := .of_returns fun _ => .note r
    have hheight (u : Term) : Keeps P (checkHeight u) :=
      .of_returns fun env => returns_checkHeight env u
    cases t with
    | absent => exact (hnote _).bind fun _ => .fail _
    | empty => exact (hnote _).bind fun _ => .pure _
    | number a u =>
      rw [evaluateWithin_number]
      refine (hnote _).bind fun _ => (hheight u).bind fun _ => ?_
      exact (Keeps.of_returns fun env => returns_canonical env a u).bind fun _ => .pure _
    | signed o t =>
      rw [evaluateWithin_signed]
      refine (hnote _).bind fun _ => (ih t).bind fun v => ?_
      exact (Keeps.of_returns fun env => returns_sign env o v).bind fun _ => .pure _
    | binary o l r =>
      by_cases ho : o = .equals
      · subst ho
        rw [evaluateWithin_equals]
        refine (hnote _).bind fun _ => ?_
        refine (Keeps.of_returns fun env => returns_target env l).bind fun s => ?_
        exact (ih r).bind fun v => (hP.store s v).bind fun _ => .pure _
      · rw [evaluateWithin_binary _ ho]
        refine (hnote _).bind fun _ => (ih l).bind fun v => (ih r).bind fun w => ?_
        exact (Keeps.of_returns fun env => returns_binary env o v w).bind fun _ => .pure _
    | name s =>
      rw [evaluateWithin_name]
      refine (hnote _).bind fun _ => ?_
      refine (Keeps.of_returns fun _ => Returns.environment).bind fun env => ?_
      exact (Keeps.of_returns fun _ => Returns.orNameError _).bind fun t => ih t
    | call s ts =>
      rw [evaluateWithin_call]
      refine (hnote _).bind fun _ => ?_
      refine (Keeps.of_returns fun env => returns_function env s _).bind fun f => ?_
      refine Keeps.bind (.mapM ts fun t => (ih t).bind fun v => ?_) fun as => ?_
      · exact (Keeps.of_returns fun env => returns_operand env s v).bind fun _ => .pure _
      · exact (Keeps.of_returns fun env => returns_apply env s f as).bind fun _ => .pure _
    | command s ts =>
      rw [evaluateWithin_command]
      exact (hnote _).bind fun _ => (hP.command s ts).bind fun _ => .pure _
    | bracketed t => exact (hnote _).bind fun _ => .fail _
    | fraction f => exact (hnote _).bind fun _ => .fail _

theorem calculate (k : Text.CharClasses) (line : List Char) :
    Keeps P (UnitCalculator.calculate k line) := by
  refine (Keeps.of_returns fun _ => Returns.notes _).bind fun _ => ?_
  split
  · exact .throw _
  · exact .pure _
  · refine (Keeps.of_returns fun _ => Returns.environment).bind fun env => ?_
    refine (Keeps.of_returns fun _ => Returns.notes _).bind fun _ => ?_
    split
    · exact .throw _
    · exact hP.evaluateWithin _ _

theorem after {env : Environment} (k : Text.CharClasses) (line : List Char) (hp : P env) :
    P (env.after k line) := by
  obtain ⟨r, env', he, hp', -⟩ := hP.calculate k line env hp
  obtain ⟨tr, h⟩ := he []
  have henv : env.after k line = env' := congrArg (fun p => p.2.env) h
  rwa [henv]

end Lasting

end UnitCalculator
