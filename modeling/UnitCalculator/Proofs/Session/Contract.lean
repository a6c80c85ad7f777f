import UnitCalculator.Proofs.Session.Execution

/-!
Contracts of computations: an invariant of the environment that outlasts failures, what holds of a
value, and what holds of the reason for a stop.
-/

set_option autoImplicit false

namespace UnitCalculator

open Run

variable {α β : Type}

/-- What holds of a value, or else of the reason for a stop. -/
def Outcome (Q : α → Prop) (E : Stop → Prop) : Except Stop α → Prop
  | .ok a => Q a
  | .error s => E s

/-- Begun where the invariant holds, the computation leaves an environment where it does, whatever it
comes to. -/
def Meets (I : Environment → Prop) (E : Stop → Prop) (x : Run α) (Q : α → Prop) : Prop :=
  ∀ env, I env → ∃ r env', x.Ends env r env' ∧ I env' ∧ Outcome Q E r

namespace Meets

variable {I : Environment → Prop} {E F : Stop → Prop} {P Q : α → Prop} {x : Run α}

theorem pure {a : α} (h : Q a) : Meets I E (Pure.pure a) Q :=
  fun env hi => ⟨_, env, .pure a env, hi, h⟩

theorem throw {s : Stop} (h : E s) : Meets I E (throw s) Q :=
  fun env hi => ⟨_, env, .throw s env, hi, h⟩

theorem fail [Host] {e : EvalError} (h : E (.failure e.failure)) : Meets I E (failWith e) Q :=
  throw h

theorem environment : Meets I E environment I :=
  fun env hi => ⟨_, env, .environment env, hi, hi⟩

theorem setEnvironment {env : Environment} (h : I env) :
    Meets I E (setEnvironment env) fun _ => True :=
  fun env₁ _ => ⟨_, env, .setEnvironment env₁ env, h, trivial⟩

theorem note [Host] {r : Remark} (h : ∀ o, r.obstacle = some o → E (.failure o.failure)) :
    Meets I E (note r) fun _ => True := by
  intro env hi
  obtain hr | ⟨-, o, ho, hr⟩ := note_ends r env
  · exact ⟨_, env, hr, hi, trivial⟩
  · exact ⟨_, env, hr, hi, h o ho⟩

theorem notes (lines : Unit → List String) : Meets I E (notes lines) fun _ => True :=
  fun env hi => ⟨_, env, .notes lines env, hi, trivial⟩

theorem bind {f : α → Run β} {R : β → Prop} (hx : Meets I E x P)
    (hf : ∀ a, P a → Meets I E (f a) R) : Meets I E (x >>= f) R := by
  intro env hi
  obtain ⟨r, env₁, he, hi₁, ho⟩ := hx env hi
  cases r with
  | error s => exact ⟨_, env₁, he.bind_error, hi₁, ho⟩
  | ok a =>
    obtain ⟨r, env₂, he', hi₂, ho'⟩ := hf a ho env₁ hi₁
    exact ⟨r, env₂, he.bind he', hi₂, ho'⟩

theorem weaken (h : Meets I E x P) (hq : ∀ a, P a → Q a) (hs : ∀ s, E s → F s) :
    Meets I F x Q := by
  intro env hi
  obtain ⟨r, env', he, hi', ho⟩ := h env hi
  cases r with
  | ok a => exact ⟨_, env', he, hi', hq a ho⟩
  | error s => exact ⟨_, env', he, hi', hs s ho⟩

theorem value (h : Meets I E x P) (hq : ∀ a, P a → Q a) : Meets I E x Q :=
  h.weaken hq fun _ hs => hs

theorem stop (h : Meets I E x Q) (hs : ∀ s, E s → F s) : Meets I F x Q :=
  h.weaken (fun _ hq => hq) hs

theorem of_returns {R : Environment → α → Prop} (h : ∀ env, Returns env x (R env)) :
    Meets I (fun _ => True) x fun _ => True := by
  intro env hi
  obtain ⟨r, he, -⟩ := h env
  refine ⟨r, env, he, hi, ?_⟩
  cases r with
  | ok a => trivial
  | error s => trivial

theorem and_returns {R : α → Prop} (h : Meets I E x Q) (hr : ∀ env, Returns env x R) :
    Meets I E x fun a => Q a ∧ R a := by
  intro env hi
  obtain ⟨r, env', he, hi', ho⟩ := h env hi
  obtain ⟨r', he', hr⟩ := hr env
  obtain ⟨rfl, -⟩ := he.unique he'
  refine ⟨r, env', he, hi', ?_⟩
  cases r with
  | ok a => exact ⟨ho, hr a rfl⟩
  | error s => exact ho

theorem orFault [Host] {y : Except Fault α} (h : ∀ f, E (.failure (.eval (.arithmetic f)))) :
    Meets I E (orFault y) fun a => y = .ok a := by
  cases y with
  | ok a => exact pure rfl
  | error f => exact fail (h f)

theorem orNameError [Host] {y : Except NameError α} (h : ∀ e, E (.failure (.eval (.name e)))) :
    Meets I E (orNameError y) fun a => y = .ok a := by
  cases y with
  | ok a => exact pure rfl
  | error e => exact fail (h e)

theorem orUnitError [Host] {y : Except UnitError α}
    (h : ∀ e, y = .error e → E (.failure (EvalError.unit e).failure)) :
    Meets I E (orUnitError y) fun a => y = .ok a := by
  cases y with
  | ok a => exact pure rfl
  | error e => exact fail (h e rfl)

theorem mapM {f : β → Run α} {as : List β} (h : ∀ a ∈ as, Meets I E (f a) Q) :
    Meets I E (as.mapM f) fun bs => ∀ b ∈ bs, Q b := by
  induction as with
  | nil => exact pure fun _ hb => nomatch hb
  | cons a as ih =>
    rw [List.mapM_cons]
    refine (h a List.mem_cons_self).bind fun b hb => ?_
    refine (ih fun c hc => h c (List.mem_cons_of_mem a hc)).bind fun bs hbs => ?_
    exact pure (List.forall_mem_cons.2 ⟨hb, hbs⟩)

end Meets

end UnitCalculator
