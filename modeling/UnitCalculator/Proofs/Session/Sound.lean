import UnitCalculator.Proofs.Session.Commands
import UnitCalculator.Proofs.Session.Levels
import UnitCalculator.Proofs.Units.Combination

/-!
Sound environments: whatever a name stands for is a number whose unit, if it has one, is canonical.
Commands keep an environment sound, and so do assignments of sound values.
-/

set_option autoImplicit false

namespace UnitCalculator

open Run Evaluate

def Stored (t : Term) : Prop := ∃ q : Quantity, t = q.toTerm ∧ Units.IsCanonical q.unit

namespace Environment

def Sound (env : Environment) : Prop := ∀ s t, env.lookup s = .ok t → Stored t

variable {env env' : Environment}

theorem Sound.of_lookup (h : env.Sound)
    (he : ∀ s t, env'.lookup s = .ok t → env.lookup s = .ok t ∨ Stored t) : env'.Sound := by
  intro s t ht
  obtain ht | ht := he s t ht
  · exact h s t ht
  · exact ht

theorem lookup_eq_ok {s : String} {t : Term} : env.lookup s = .ok t ↔
    env.constants.get? s = some t ∨
      env.constants.get? s = none ∧ env.bindings.get? s = some (some t) := by
  unfold lookup
  cases env.constants.get? s with
  | some u => simp
  | none =>
    cases env.bindings.get? s with
    | none => simp
    | some b =>
      cases b with
      | none => simp
      | some u => simp

theorem Sound.declare (h : env.Sound) {s : String} (hd : env.declare s = .ok env') :
    env'.Sound := by
  refine h.of_lookup fun u t ht => .inl ?_
  unfold Environment.declare at hd
  split at hd
  · cases hd
  · split at hd
    · cases hd
      exact ht
    · cases hd
      rw [lookup_eq_ok] at ht ⊢
      rw [Table.get?_set] at ht
      by_cases hu : u = s
      · rw [if_pos hu] at ht
        obtain ht | ⟨_, ht⟩ := ht
        · exact .inl ht
        · cases ht
      · rw [if_neg hu] at ht
        exact ht

theorem Sound.assign (h : env.Sound) {s : String} {v : Term} (hv : Stored v)
    (ha : env.assign s v = .ok env') : env'.Sound := by
  unfold Environment.assign at ha
  cases hc : env.checkAssignable s with
  | error e => simp [hc, bind, Except.bind] at ha
  | ok _ =>
    simp only [hc, bind, Except.bind, Except.ok.injEq] at ha
    subst ha
    refine h.of_lookup fun u t ht => ?_
    rw [lookup_eq_ok] at ht ⊢
    rw [Table.get?_set] at ht
    by_cases hu : u = s
    · rw [if_pos hu] at ht
      obtain ht | ⟨_, ht⟩ := ht
      · exact .inl (.inl ht)
      · cases ht
        exact .inr hv
    · rw [if_neg hu] at ht
      exact .inl ht

theorem Sound.settings (h : env.Sound) (hc : env'.constants = env.constants)
    (hb : env'.bindings = env.bindings) : env'.Sound := by
  refine h.of_lookup fun s t ht => .inl ?_
  rw [lookup_eq_ok, hc, hb] at ht
  exact lookup_eq_ok.2 ht

theorem stored_real (x : Float) : Stored (real x) :=
  ⟨⟨.real x, none⟩, rfl, Units.isCanonical_none⟩

theorem stored_imaginaryUnit : Stored imaginaryUnit :=
  ⟨⟨.complex ⟨0, 1⟩, none⟩, rfl, Units.isCanonical_none⟩

theorem stored_of_builtin {s : String} {t : Term} (h : builtinConstants.get? s = some t) :
    Stored t := by
  simp only [builtinConstants, Table.get?] at h
  split at h
  · cases h
    exact stored_real pi
  split at h
  · cases h
    exact stored_real eulerNumber
  split at h
  · cases h
    exact stored_real epsilon
  split at h
  · cases h
    exact stored_imaginaryUnit
  split at h
  · cases h
    exact stored_imaginaryUnit
  cases h

theorem sound_fresh (debug : Bool) (maxDepth : Int) :
    Sound { fresh with debug, maxDepth } := by
  intro s t ht
  rw [lookup_eq_ok] at ht
  obtain ht | ⟨_, ht⟩ := ht
  · exact stored_of_builtin ht
  · cases ht

end Environment

/-! Commands -/

theorem Command.respected_sound : Respected Environment.Sound :=
  ⟨fun _ _ _ h => h.settings rfl rfl, fun h hd => h.declare hd⟩

/-! Computations in sound environments -/

/-- Begun in `env`, the computation leaves a sound environment, also when it fails; a value and the
environment behind it have the property. -/
def Secures (env : Environment) {α : Type} (x : Run α) (Q : α → Environment → Prop) : Prop :=
  ∃ r env', x.Ends env r env' ∧ env'.Sound ∧ ∀ a, r = .ok a → Q a env'

namespace Secures

variable {α β : Type} {env : Environment} {P Q : α → Environment → Prop}

theorem of_returns {x : Run α} {R : α → Prop} (hs : env.Sound) (h : Returns env x R) :
    Secures env x fun a env' => env' = env ∧ R a := by
  obtain ⟨r, he, hr⟩ := h
  exact ⟨r, env, he, hs, fun a ha => ⟨rfl, hr a ha⟩⟩

theorem pure {a : α} (hs : env.Sound) (h : Q a env) : Secures env (Pure.pure a) Q := by
  refine ⟨_, env, .pure a env, hs, fun b hb => ?_⟩
  cases hb
  exact h

theorem throw (s : Stop) (hs : env.Sound) : Secures env (throw s) Q :=
  ⟨_, env, .throw s env, hs, fun _ h => by cases h⟩

theorem fail [Host] (e : EvalError) (hs : env.Sound) : Secures env (failWith e) Q := throw _ hs

theorem setEnvironment {env' : Environment} (hs : env'.Sound) :
    Secures env (setEnvironment env') fun _ env₁ => env₁ = env' :=
  ⟨_, env', .setEnvironment env env', hs, fun _ _ => rfl⟩

theorem bind {x : Run α} {f : α → Run β} {R : β → Environment → Prop} (hx : Secures env x P)
    (hf : ∀ a env', env'.Sound → x.Ends env (.ok a) env' → P a env' → Secures env' (f a) R) :
    Secures env (x >>= f) R := by
  obtain ⟨r, env₁, he, hs, hr⟩ := hx
  cases r with
  | error s => exact ⟨_, env₁, he.bind_error, hs, fun _ h => by cases h⟩
  | ok a =>
    obtain ⟨r', env₂, he', hs', hr'⟩ := hf a env₁ hs he (hr a rfl)
    exact ⟨r', env₂, he.bind he', hs', hr'⟩

theorem after {x : Run α} {f : α → Run β} {S : α → Prop} {R : β → Environment → Prop}
    (hs : env.Sound) (hx : Returns env x S) (hf : ∀ a, S a → Secures env (f a) R) :
    Secures env (x >>= f) R := by
  refine (of_returns hs hx).bind fun a env' _ _ h => ?_
  obtain ⟨rfl, ha⟩ := h
  exact hf a ha

theorem weaken {x : Run α} (h : Secures env x P) (hq : ∀ a env', P a env' → Q a env') :
    Secures env x Q := by
  obtain ⟨r, env', he, hs, hr⟩ := h
  exact ⟨r, env', he, hs, fun a ha => hq a env' (hr a ha)⟩

theorem mapM {f : α → Run β} {S : α → Prop} (hs : env.Sound) (as : List α)
    (h : ∀ a ∈ as, Secures env (f a) fun _ env' => env' = env ∧ S a) :
    Secures env (as.mapM f) fun _ env' => env' = env ∧ ∀ a ∈ as, S a := by
  induction as with
  | nil => exact pure hs ⟨rfl, fun _ ha => nomatch ha⟩
  | cons a as ih =>
    rw [List.mapM_cons]
    refine (h a List.mem_cons_self).bind fun b env₁ _ _ hb => ?_
    obtain ⟨rfl, hb⟩ := hb
    have has := ih fun c hc => h c (List.mem_cons_of_mem a hc)
    refine has.bind fun bs env₂ hs₂ _ hbs => ?_
    obtain ⟨rfl, hbs⟩ := hbs
    exact pure hs₂ ⟨rfl, List.forall_mem_cons.2 ⟨hb, hbs⟩⟩

end Secures

variable [Host]

theorem secures_afterEffect {env : Environment} {e : Command.Effect} (hs : e.1.Sound) :
    Secures env (afterEffect e) fun _ _ => True := by
  refine (Secures.setEnvironment hs).bind fun _ env' hs' _ _ => ?_
  cases e.2 with
  | none => exact .pure hs' trivial
  | some c => exact .fail _ hs'

theorem secures_command {env : Environment} (hs : env.Sound) (s : String) (ts : List Token) :
    Secures env (command s ts) fun _ _ => True := by
  refine .after hs .environment fun e he => ?_
  subst he
  split
  · exact .fail _ hs
  · exact secures_afterEffect (Command.respected_sound.setOutput hs ts)
  · exact secures_afterEffect (Command.respected_sound.setDebug hs ts)
  · exact secures_afterEffect (Command.respected_sound.declareAll hs ts)
  · exact .throw _ hs

theorem secures_store {env : Environment} (hs : env.Sound) (s : String) {v : Value}
    (hv : ∀ q, v = some q → Units.IsCanonical q.unit) :
    Secures env (store s v) fun x _ => ∃ q, v = some q ∧ x.unit = q.unit := by
  refine .after hs (returns_operand env _ v) fun q hq => ?_
  refine .after hs .environment fun e he => ?_
  subst he
  refine .after hs (.orNameError _) fun env' he => ?_
  have hs' : env'.Sound := hs.assign ⟨{ q with value := q.value.widened }, rfl, hv q hq⟩ he
  exact (Secures.setEnvironment hs').bind fun _ _ hs' _ _ => .pure hs' ⟨q, hq, rfl⟩

end UnitCalculator
