import UnitCalculator.Proofs.Term.Writing
import UnitCalculator.Session.Line

/-!
How computations in a session end. The trace is only written to, so a computation that begins in an
environment ends in one way and leaves one environment, whatever has been traced before.
-/

set_option autoImplicit false

namespace UnitCalculator

theorem Host.exists_evaluation_eq [Host] {m : Nat} (h : m ≤ 100) : ∃ n, Host.evaluation = n + m :=
  Nat.exists_eq_add_of_le' (h.trans Host.evaluation_ge)

/-! Texts that can be written or not -/

theorem CommandError.obstacle_eq_some {e : CommandError} {o : Obstacle} (h : e.obstacle = some o) :
    o = .tooLong := by
  cases e with
  | outputFormat t | debugArgument t | notName t => exact Token.obstacle_eq_some h
  | debugArguments | name e => cases h

theorem EvalError.failure_of_none [Host] {e : EvalError} (h : e.obstacle = none) :
    e.failure = .eval e := by
  rw [failure, h]

theorem EvalError.failure_of_some [Host] {e : EvalError} {o : Obstacle} (h : e.obstacle = some o) :
    e.failure = o.failure := by
  rw [failure, h]

theorem Environment.display_of_short (env : Environment) {q : Quantity} (h : q.toTerm.Short) :
    env.display (some q) = .ok (Display.term env.radix env.group q.toTerm) := by
  obtain ⟨hvalue, hunit⟩ := Quantity.short_toTerm_iff.1 h
  have ho : env.displayObstacle (some q) = none := by simp [displayObstacle, hvalue, hunit]
  rw [display, ho]
  rfl

theorem Remark.obstacle_eq_none_iff [Host] {r : Remark} :
    r.obstacle = none ↔ ∀ t ∈ r.terms, t.obstacle Host.writing = none :=
  List.findSome?_eq_none_iff

namespace Run

variable {α β : Type}

/-- Begun in `env`, the computation ends in `r` and leaves `env'`. -/
def Ends (x : Run α) (env : Environment) (r : Except Stop α) (env' : Environment) : Prop :=
  ∀ tr, ∃ tr', x.run.run ⟨env, tr⟩ = (r, ⟨env', tr'⟩)

/-- How a computation ends does not depend on the trace. -/
def Blind (x : Run α) : Prop := ∀ env, ∃ r env', x.Ends env r env'

theorem Ends.unique {x : Run α} {env env₁ env₂ : Environment} {r₁ r₂ : Except Stop α}
    (h₁ : x.Ends env r₁ env₁) (h₂ : x.Ends env r₂ env₂) : r₁ = r₂ ∧ env₁ = env₂ := by
  obtain ⟨tr₁, he₁⟩ := h₁ []
  obtain ⟨tr₂, he₂⟩ := h₂ []
  rw [he₁] at he₂
  obtain ⟨hr, hm⟩ := Prod.mk.inj he₂
  exact ⟨hr, congrArg Machine.env hm⟩

theorem Blind.ends {x : Run α} (h : Blind x) {m m' : Machine} {r : Except Stop α}
    (he : x.run.run m = (r, m')) : x.Ends m.env r m'.env := by
  obtain ⟨r', env', hx⟩ := h m.env
  obtain ⟨tr', h'⟩ := hx m.trace
  obtain ⟨rfl, rfl⟩ := Prod.mk.inj (he.symm.trans h')
  exact hx

theorem Ends.result {x : Run α} {env env' : Environment} {r : Except Stop α}
    (h : x.Ends env r env') (tr : List String) : (x.run.run ⟨env, tr⟩).1 = r := by
  obtain ⟨tr', he⟩ := h tr
  rw [he]

theorem run_bind (x : Run α) (f : α → Run β) (m : Machine) :
    (x >>= f).run.run m = match x.run.run m with
      | (.ok a, m') => (f a).run.run m'
      | (.error e, m') => (.error e, m') := by
  rw [ExceptT.run_bind, StateT.run_bind]
  cases x.run.run m with
  | mk r m' =>
    cases r with
    | ok a => rfl
    | error e => rfl

theorem run_note [Host] (r : Remark) (m : Machine) : (note r).run.run m =
    if m.env.debug then
      match r.obstacle with
      | none => (.ok (), { m with trace := r.line :: m.trace })
      | some o => (.error (.failure o.failure), m)
    else (.ok (), m) := by
  rw [note, run_bind]
  change (if m.env.debug then _ else _ : Run Unit).run.run m = _
  by_cases hd : m.env.debug = true
  · rw [if_pos hd, if_pos hd]
    cases r.obstacle with
    | none => rfl
    | some o => rfl
  · rw [if_neg hd, if_neg hd]
    rfl

theorem run_notes (lines : Unit → List String) (m : Machine) : (notes lines).run.run m =
    (.ok (), if m.env.debug then { m with trace := (lines ()).reverse ++ m.trace } else m) := rfl

/-! Endings of the parts of a computation -/

theorem Ends.pure (a : α) (env : Environment) : (Pure.pure a : Run α).Ends env (.ok a) env :=
  fun tr => ⟨tr, rfl⟩

theorem Ends.throw (s : Stop) (env : Environment) : (throw s : Run α).Ends env (.error s) env :=
  fun tr => ⟨tr, rfl⟩

theorem Ends.fail [Host] (e : EvalError) (env : Environment) :
    (failWith e : Run α).Ends env (.error (.failure e.failure)) env := .throw _ env

theorem Ends.bind {x : Run α} {f : α → Run β} {env env₁ env₂ : Environment} {a : α}
    {r : Except Stop β} (hx : x.Ends env (.ok a) env₁) (hf : (f a).Ends env₁ r env₂) :
    (x >>= f).Ends env r env₂ := by
  intro tr
  obtain ⟨tr₁, h₁⟩ := hx tr
  obtain ⟨tr₂, h₂⟩ := hf tr₁
  exact ⟨tr₂, by rw [run_bind, h₁, ← h₂]⟩

theorem Ends.bind_error {x : Run α} {f : α → Run β} {env env₁ : Environment} {s : Stop}
    (hx : x.Ends env (.error s) env₁) : (x >>= f).Ends env (.error s) env₁ := by
  intro tr
  obtain ⟨tr₁, h₁⟩ := hx tr
  exact ⟨tr₁, by rw [run_bind, h₁]⟩

theorem Ends.environment (env : Environment) : environment.Ends env (.ok env) env :=
  fun tr => ⟨tr, rfl⟩

theorem Ends.setEnvironment (env env' : Environment) :
    (setEnvironment env').Ends env (.ok ()) env' := fun tr => ⟨tr, rfl⟩

theorem Ends.note [Host] {r : Remark} {env : Environment}
    (h : env.debug = true → r.obstacle = none) : (note r).Ends env (.ok ()) env := by
  intro tr
  rw [run_note]
  split
  · rename_i hd
    rw [h hd]
    exact ⟨_, rfl⟩
  · exact ⟨_, rfl⟩

theorem Ends.note_unwritten [Host] {r : Remark} {env : Environment} (hd : env.debug = true)
    {o : Obstacle} (h : r.obstacle = some o) :
    (Run.note r).Ends env (.error (.failure o.failure)) env := by
  intro tr
  rw [run_note, if_pos hd, h]
  exact ⟨_, rfl⟩

theorem note_ends [Host] (r : Remark) (env : Environment) :
    (note r).Ends env (.ok ()) env ∨ env.debug = true ∧ ∃ o, r.obstacle = some o ∧
      (note r).Ends env (.error (.failure o.failure)) env := by
  by_cases hd : env.debug = true
  · cases ho : r.obstacle with
    | none => exact .inl (.note fun _ => ho)
    | some o => exact .inr ⟨hd, o, rfl, .note_unwritten hd ho⟩
  · exact .inl (.note fun h => absurd h hd)

theorem Ends.notes (lines : Unit → List String) (env : Environment) :
    (notes lines).Ends env (.ok ()) env := by
  intro tr
  rw [run_notes]
  split
  · exact ⟨_, rfl⟩
  · exact ⟨_, rfl⟩

def stopped (x : Except Fault α) : Except Stop α :=
  x.mapError fun f => .failure (.eval (.arithmetic f))

theorem Ends.orFault [Host] (x : Except Fault α) (env : Environment) :
    (orFault x).Ends env (stopped x) env := by
  cases x with
  | ok a => exact .pure a env
  | error f => exact .fail _ env

/-- A fault ends a computation that is otherwise determined by the value of an operation. -/
theorem Ends.orFault_bind [Host] {x : Except Fault α} {f : α → Run β} {g : α → β} {env : Environment}
    (hf : ∀ a, (f a).Ends env (.ok (g a)) env) :
    (Run.orFault x >>= f).Ends env (stopped (x.map g)) env := by
  cases x with
  | ok a => exact (Ends.orFault (.ok a) env).bind (hf a)
  | error e => exact (Ends.orFault (.error e) env).bind_error

theorem Ends.bind_pure {x : Run α} {y : Except Fault α} {env env' : Environment}
    (h : x.Ends env (stopped y) env') (f : α → β) :
    (x >>= fun a => Pure.pure (f a)).Ends env (stopped (y.map f)) env' := by
  cases y with
  | ok a => exact h.bind (.pure (f a) env')
  | error e => exact h.bind_error

theorem Blind.pure (a : α) : Blind (Pure.pure a : Run α) := fun env => ⟨_, _, .pure a env⟩

theorem Blind.bind {x : Run α} {f : α → Run β} (hx : Blind x) (hf : ∀ a, Blind (f a)) :
    Blind (x >>= f) := by
  intro env
  obtain ⟨r, env₁, he⟩ := hx env
  cases r with
  | error s => exact ⟨_, _, he.bind_error⟩
  | ok a =>
    obtain ⟨r, env₂, he'⟩ := hf a env₁
    exact ⟨r, env₂, he.bind he'⟩

/-! Computations that only read the environment -/

/-- The environment stays as it is, and a value that is returned has the property. -/
def Returns (env : Environment) (x : Run α) (Q : α → Prop) : Prop :=
  ∃ r, x.Ends env r env ∧ ∀ a, r = .ok a → Q a

namespace Returns

variable {env : Environment} {P Q : α → Prop}

theorem pure {a : α} (h : Q a) : Returns env (Pure.pure a) Q := by
  refine ⟨_, .pure a env, fun b hb => ?_⟩
  cases hb
  exact h

theorem throw (s : Stop) : Returns env (throw s) Q :=
  ⟨_, .throw s env, fun _ h => by cases h⟩

theorem fail [Host] (e : EvalError) : Returns env (failWith e) Q := throw _

theorem environment : Returns env environment fun e => e = env := by
  refine ⟨_, .environment env, fun e he => ?_⟩
  cases he
  rfl

theorem note [Host] (r : Remark) : Returns env (note r) fun _ => True := by
  obtain h | ⟨-, o, -, h⟩ := note_ends r env
  · exact ⟨_, h, fun _ _ => trivial⟩
  · exact ⟨_, h, fun _ _ => trivial⟩

theorem notes (lines : Unit → List String) : Returns env (notes lines) fun _ => True :=
  ⟨_, .notes lines env, fun _ _ => trivial⟩

theorem bind {x : Run α} {f : α → Run β} {R : β → Prop} (hx : Returns env x P)
    (hf : ∀ a, P a → Returns env (f a) R) : Returns env (x >>= f) R := by
  obtain ⟨r, he, hr⟩ := hx
  cases r with
  | error s => exact ⟨_, he.bind_error, fun _ h => by cases h⟩
  | ok a =>
    obtain ⟨r', he', hr'⟩ := hf a (hr a rfl)
    exact ⟨r', he.bind he', hr'⟩

theorem weaken {x : Run α} (h : Returns env x P) (hq : ∀ a, P a → Q a) : Returns env x Q := by
  obtain ⟨r, he, hr⟩ := h
  exact ⟨r, he, fun a ha => hq a (hr a ha)⟩

theorem orFault [Host] (x : Except Fault α) : Returns env (orFault x) fun a => x = .ok a := by
  cases x with
  | ok a => exact pure rfl
  | error e => exact fail _

theorem orUnitError [Host] (x : Except UnitError α) :
    Returns env (orUnitError x) fun a => x = .ok a := by
  cases x with
  | ok a => exact pure rfl
  | error e => exact fail _

theorem orNameError [Host] (x : Except NameError α) :
    Returns env (orNameError x) fun a => x = .ok a := by
  cases x with
  | ok a => exact pure rfl
  | error e => exact fail _

end Returns

theorem Blind.of_returns {x : Run α} {Q : Environment → α → Prop}
    (h : ∀ env, Returns env x (Q env)) : Blind x := by
  intro env
  obtain ⟨r, he, _⟩ := h env
  exact ⟨r, env, he⟩

end Run

/-- The terms whose values a term asks for, the term itself included. -/
inductive Term.Part : Term → Term → Prop where
  | here {t : Term} : Part t t
  | operand {s t : Term} {o : Operator} : Part s t → Part s (.signed o t)
  | left {s l r : Term} {o : Operator} : Part s l → Part s (.binary o l r)
  | right {s l r : Term} {o : Operator} : Part s r → Part s (.binary o l r)
  | argument {s t : Term} {f : String} {ts : List Term} :
      t ∈ ts → Part s t → Part s (.call f ts)

theorem Term.Short.part {s t : Term} (h : t.Short) (hs : Part s t) : s.Short := by
  induction hs with
  | here => exact h
  | operand _ ih =>
    cases h with
    | signed h => exact ih h
  | left _ ih =>
    cases h with
    | binary hl _ => exact ih hl
  | right _ ih =>
    cases h with
    | binary _ hr => exact ih hr
  | argument ht _ ih =>
    cases h with
    | call h => exact ih (h _ ht)

/-! What a term asks for, one equation for each kind of term that has a value -/

section Equations

open Evaluate Run

variable [Host] (n : Nat)

theorem evaluateWithin_number (a : Number) (u : Term) :
    evaluateWithin (n + 1) (.number a u) = (do
      note (.evaluation (.number a u))
      checkHeight u
      return some (← canonical a u)) := rfl

theorem evaluateWithin_signed (o : Operator) (t : Term) :
    evaluateWithin (n + 1) (.signed o t) = (do
      note (.evaluation (.signed o t))
      return some (← sign o (← evaluateWithin n t))) := rfl

theorem evaluateWithin_equals (l r : Term) :
    evaluateWithin (n + 1) (.binary .equals l r) = (do
      note (.evaluation (.binary .equals l r))
      let s ← target l
      let v ← evaluateWithin n r
      return some (← store s v)) := rfl

theorem evaluateWithin_binary {o : Operator} (ho : o ≠ .equals) (l r : Term) :
    evaluateWithin (n + 1) (.binary o l r) = (do
      note (.evaluation (.binary o l r))
      let v ← evaluateWithin n l
      let w ← evaluateWithin n r
      return some (← binary o v w)) := by
  cases o with
  | equals => exact absurd rfl ho
  | _ => rfl

theorem evaluateWithin_name (s : String) :
    evaluateWithin (n + 1) (.name s) = (do
      note (.evaluation (.name s))
      let t ← orNameError ((← environment).lookup s)
      evaluateWithin n t) := rfl

theorem evaluateWithin_call (s : String) (ts : List Term) :
    evaluateWithin (n + 1) (.call s ts) = (do
      note (.evaluation (.call s ts))
      let f ← function s ts.length
      let args ← ts.mapM fun t => do
        return (← operand s (← evaluateWithin n t)).value.widened
      return some (← Evaluate.apply s f args)) := rfl

theorem evaluateWithin_command (s : String) (ts : List Token) :
    evaluateWithin (n + 1) (.command s ts) = (do
      note (.evaluation (.command s ts))
      command s ts
      return none) := rfl

end Equations

end UnitCalculator
