import UnitCalculator.Proofs.Session.Effects
import UnitCalculator.Proofs.Session.Outcomes
import Mathlib.Logic.Relation

/-!
The course of an evaluation. Commands may stand anywhere in an expression; which of them are carried
out, and in which environment, depends on what is evaluated before them. Nothing else in an
expression changes the environment, and at the top of a line only an assignment that succeeds.
-/

set_option autoImplicit false

namespace UnitCalculator

open Run Evaluate Relation

/-! Computations that change the environment step by step -/

/-- Begun in `env`, the computation leaves an environment to which steps of `R` lead, whatever it
comes to; a value and the environment behind it have the property. -/
def Leads (R : Environment → Environment → Prop) (env : Environment) {α : Type} (x : Run α)
    (Q : α → Environment → Prop) : Prop :=
  ∃ r env', x.Ends env r env' ∧ ReflTransGen R env env' ∧ ∀ a, r = .ok a → Q a env'

namespace Leads

variable {α β : Type} {R S : Environment → Environment → Prop} {env env' : Environment}
  {P Q : α → Environment → Prop} {x : Run α}

theorem of_returns {T : α → Prop} (h : Returns env x T) :
    Leads R env x fun a env' => env' = env ∧ T a := by
  obtain ⟨r, he, hr⟩ := h
  exact ⟨r, env, he, .refl, fun a ha => ⟨rfl, hr a ha⟩⟩

theorem pure {a : α} (h : Q a env) : Leads R env (Pure.pure a) Q := by
  refine ⟨_, env, .pure a env, .refl, fun b hb => ?_⟩
  cases hb
  exact h

theorem fail [Host] (e : EvalError) : Leads R env (failWith e) Q :=
  ⟨_, env, .fail e env, .refl, fun _ h => by cases h⟩

theorem step {r : Except Stop α} (h : x.Ends env r env') (hR : R env env') :
    Leads R env x fun _ _ => True :=
  ⟨r, env', h, .single hR, fun _ _ => trivial⟩

theorem bind {f : α → Run β} {T : β → Environment → Prop} (hx : Leads R env x P)
    (hf : ∀ a env', x.Ends env (.ok a) env' → P a env' → Leads R env' (f a) T) :
    Leads R env (x >>= f) T := by
  obtain ⟨r, env₁, he, hR, hr⟩ := hx
  cases r with
  | error s => exact ⟨_, env₁, he.bind_error, hR, fun _ h => by cases h⟩
  | ok a =>
    obtain ⟨r', env₂, he', hR', hr'⟩ := hf a env₁ he (hr a rfl)
    exact ⟨r', env₂, he.bind he', hR.trans hR', hr'⟩

theorem after {f : α → Run β} {T : α → Prop} {U : β → Environment → Prop}
    (hx : Returns env x T) (hf : ∀ a, x.Ends env (.ok a) env → T a → Leads R env (f a) U) :
    Leads R env (x >>= f) U := by
  refine (of_returns hx).bind fun a env' he h => ?_
  obtain ⟨rfl, ha⟩ := h
  exact hf a he ha

theorem weaken (h : Leads R env x P) (hq : ∀ a env', P a env' → Q a env') : Leads R env x Q := by
  obtain ⟨r, env', he, hR, hr⟩ := h
  exact ⟨r, env', he, hR, fun a ha => hq a env' (hr a ha)⟩

theorem mono (h : Leads R env x Q) (hRS : ∀ e e', R e e' → S e e') : Leads S env x Q := by
  obtain ⟨r, env', he, hR, hr⟩ := h
  exact ⟨r, env', he, ReflTransGen.mono hRS _ _ hR, hr⟩

theorem mapM {f : α → Run β} (as : List α)
    (h : ∀ before a after bs env₁, as = before ++ a :: after →
      (before.mapM f).Ends env (.ok bs) env₁ → Leads R env₁ (f a) fun _ _ => True) :
    Leads R env (as.mapM f) fun _ _ => True := by
  induction as generalizing env with
  | nil => exact pure trivial
  | cons a as ih =>
    rw [List.mapM_cons]
    have ha := h [] a as [] env rfl (.pure [] env)
    refine ha.bind fun b env₁ he _ => ?_
    have has : Leads R env₁ (as.mapM f) fun _ _ => True := by
      refine ih fun before a' after bs env₂ hsplit hb => ?_
      refine h (a :: before) a' after (b :: bs) env₂ (by rw [hsplit]; rfl) ?_
      rw [List.mapM_cons]
      exact he.bind (hb.bind (.pure _ _))
    exact has.bind fun bs env₂ _ _ => pure trivial

theorem ends {r : Except Stop α} (h : Leads R env x Q) (hx : x.Ends env r env') :
    ReflTransGen R env env' ∧ ∀ a, r = .ok a → Q a env' := by
  obtain ⟨r', env₁, he, hR, hr⟩ := h
  obtain ⟨rfl, rfl⟩ := hx.unique he
  exact ⟨hR, hr⟩

end Leads

theorem Secures.ends {α : Type} {env env' : Environment} {x : Run α} {Q : α → Environment → Prop}
    {r : Except Stop α} (h : Secures env x Q) (hx : x.Ends env r env') :
    env'.Sound ∧ ∀ a, r = .ok a → Q a env' := by
  obtain ⟨r', env₁, he, hs, hr⟩ := h
  obtain ⟨rfl, rfl⟩ := hx.unique he
  exact ⟨hs, hr⟩

theorem parse_nil (names : Names) (limit : Int) : ∃ e, parse names limit [] = .error e := by
  unfold parse parseWithVisits Grammar.line
  cases limit.toNat with
  | zero => exact ⟨_, rfl⟩
  | succ n => exact ⟨_, rfl⟩

variable [Host]

/-! The commands that are carried out -/

/-- The trace does not refuse to show the term. -/
def Noted (env : Environment) (t : Term) : Prop := (note (.evaluation t)).Ends env (.ok ()) env

def argument (n : Nat) (s : String) (t : Term) : Run Number := do
  return (← operand s (← evaluateWithin n t)).value.widened

/-- While a term is evaluated with some levels, begun in an environment, the command `c` is carried
out on the tokens `us`, in the environment `e`. -/
inductive CarriesOut (e : Environment) (c : String) (us : List Token) :
    Nat → Environment → Term → Prop where
  | here {n : Nat} : Noted e (.command c us) → CarriesOut e c us (n + 1) e (.command c us)
  | operand {n : Nat} {env : Environment} {o : Operator} {t : Term} :
      Noted env (.signed o t) → CarriesOut e c us n env t →
        CarriesOut e c us (n + 1) env (.signed o t)
  | left {n : Nat} {env : Environment} {o : Operator} {l r : Term} : o ≠ .equals →
      Noted env (.binary o l r) → CarriesOut e c us n env l →
        CarriesOut e c us (n + 1) env (.binary o l r)
  | right {n : Nat} {env env₁ : Environment} {o : Operator} {l r : Term} {v : Value} :
      o ≠ .equals → Noted env (.binary o l r) → (evaluateWithin n l).Ends env (.ok v) env₁ →
        CarriesOut e c us n env₁ r → CarriesOut e c us (n + 1) env (.binary o l r)
  | assigned {n : Nat} {env : Environment} {l r : Term} {s : String} :
      Noted env (.binary .equals l r) → (target l).Ends env (.ok s) env →
        CarriesOut e c us n env r → CarriesOut e c us (n + 1) env (.binary .equals l r)
  | argument {n : Nat} {env env₁ : Environment} {f : String} {before after : List Term} {t : Term}
      {g : Function} {as : List Number} : Noted env (.call f (before ++ t :: after)) →
      (function f (before ++ t :: after).length).Ends env (.ok g) env →
      (before.mapM (argument n f)).Ends env (.ok as) env₁ → CarriesOut e c us n env₁ t →
        CarriesOut e c us (n + 1) env (.call f (before ++ t :: after))

theorem CarriesOut.part {e env : Environment} {c : String} {us : List Token} {n : Nat} {t : Term}
    (h : CarriesOut e c us n env t) : Term.Part (.command c us) t := by
  induction h with
  | here _ => exact .here
  | operand _ _ ih => exact .operand ih
  | left _ _ _ ih => exact .left ih
  | right _ _ _ _ ih => exact .right ih
  | assigned _ _ _ ih => exact .right ih
  | argument _ _ _ _ ih => exact .argument (by simp) ih

/-- One command that is carried out leads from one environment to another. -/
def Performs (n : Nat) (env : Environment) (t : Term) (e e' : Environment) : Prop :=
  ∃ c us r, CarriesOut e c us n env t ∧ (command c us).Ends e r e'

theorem Performs.mono {n m : Nat} {env env₁ : Environment} {t u : Term}
    (h : ∀ e c us, CarriesOut e c us n env t → CarriesOut e c us m env₁ u) (e e' : Environment)
    (hp : Performs n env t e e') : Performs m env₁ u e e' := by
  obtain ⟨c, us, r, hc, he⟩ := hp
  exact ⟨c, us, r, h e c us hc, he⟩

/-! Expressions -/

theorem returns_literal (env : Environment) (n : Nat) (a : Number) (u : Term) :
    Returns env (evaluateWithin n (.number a u)) fun v =>
      ∃ q, v = some q ∧ Units.canonicalize a u = .ok q := by
  cases n with
  | zero => exact .fail _
  | succ n =>
    rw [evaluateWithin_number]
    refine (Returns.note _).bind fun _ _ => (returns_checkHeight env u).bind fun _ _ => ?_
    exact (returns_canonical env a u).bind fun q hq => .pure ⟨q, rfl, hq⟩

theorem returns_toTerm (env : Environment) (n : Nat) (q : Quantity) :
    Returns env (evaluateWithin n q.toTerm) fun v =>
      ∃ x, v = some x ∧ Units.canonicalize q.value (unitTerm q.unit) = .ok x := by
  obtain ⟨a, p⟩ := q
  cases p with
  | none | some f => exact returns_literal env n a _

theorem eq_of_arguments {env env' : Environment} (hs : env.Sound) {n : Nat}
    (hn : n ≤ Host.evaluation) {s : String} {ts : List Term} (hts : ∀ t ∈ ts, Expression t)
    {as : List Number} (h : (ts.mapM (argument n s)).Ends env (.ok as) env') : env' = env := by
  have hsec := Secures.mapM (f := argument n s) hs ts fun t ht =>
    secures_argument (secures_expression hs (hts t ht) hn)
  exact ((hsec.ends h).2 as rfl).1

/-- Only the commands that are carried out in an expression change the environment. -/
theorem leads_expression {env : Environment} (hs : env.Sound) {t : Term} (ht : Expression t)
    {n : Nat} (hn : n ≤ Host.evaluation) :
    Leads (Performs n env t) env (evaluateWithin n t) fun _ _ => True := by
  -- on the levels, as a name is evaluated to a term that is no part of the expression
  induction n generalizing env t with
  | zero => exact .fail _
  | succ n ih =>
    have hn' : n ≤ Host.evaluation := by omega
    cases ht with
    | @number a u _ =>
      exact (Leads.of_returns (returns_literal env _ a u)).weaken fun _ _ _ => trivial
    | @signed o t ht =>
      rw [evaluateWithin_signed]
      refine .after (.note _) fun _ hnote _ => ?_
      have hmono := Performs.mono fun e c us (hc : CarriesOut e c us n env t) => .operand hnote hc
      refine ((ih hs ht hn').mono hmono).bind fun v env₁ _ _ => ?_
      exact .after (returns_sign env₁ o v) fun _ _ _ => .pure trivial
    | @binary o l r ho hl hr =>
      rw [evaluateWithin_binary _ ho]
      refine .after (.note _) fun _ hnote _ => ?_
      have hmono := Performs.mono fun e c us (hc : CarriesOut e c us n env l) => .left ho hnote hc
      refine ((ih hs hl hn').mono hmono).bind fun v env₁ hv _ => ?_
      have hs₁ : env₁.Sound := ((secures_expression hs hl hn').ends hv).1
      have hmono := Performs.mono fun e c us (hc : CarriesOut e c us n env₁ r) =>
        .right ho hnote hv hc
      refine ((ih hs₁ hr hn').mono hmono).bind fun w env₂ _ _ => ?_
      exact .after (returns_binary env₂ o v w) fun _ _ _ => .pure trivial
    | name s =>
      rw [evaluateWithin_name]
      refine .after (.note _) fun _ _ _ => ?_
      refine .after .environment fun e _ he => .after (.orNameError _) fun t _ ht => ?_
      rw [he] at ht
      obtain ⟨q, rfl, -⟩ := hs s t ht
      exact (Leads.of_returns (returns_toTerm env n q)).weaken fun _ _ _ => trivial
    | @call s ts hts =>
      rw [evaluateWithin_call]
      refine .after (.note _) fun _ hnote _ => ?_
      refine .after (returns_function env s _) fun f hf _ => ?_
      have hargs : Leads (Performs (n + 1) env (.call s ts)) env (ts.mapM (argument n s))
          fun _ _ => True := by
        refine .mapM ts fun before t after bs env₁ hsplit hb => ?_
        subst hsplit
        obtain rfl := eq_of_arguments hs hn' (fun u hu => hts u (by simp [hu])) hb
        have hmono := Performs.mono fun e c us (hc : CarriesOut e c us n env₁ t) =>
          .argument hnote hf hb hc
        refine ((ih hs (hts t (by simp)) hn').mono hmono).bind fun v env₂ _ _ => ?_
        exact .after (returns_operand env₂ s v) fun _ _ _ => .pure trivial
      refine hargs.bind fun as env₁ _ _ => ?_
      exact .after (returns_apply env₁ s f as) fun _ _ _ => .pure trivial
    | command s ts =>
      rw [evaluateWithin_command]
      refine .after (.note _) fun _ hnote _ => ?_
      obtain ⟨r, env', he⟩ := blind_command s ts env
      exact (Leads.step he ⟨s, ts, r, .here hnote, he⟩).bind fun _ _ _ _ => .pure trivial

/-! Lines -/

theorem ends_store {env : Environment} {s : String} (h : env.checkAssignable s = .ok ())
    (q : Quantity) : (store s (some q)).Ends env (.ok { q with value := q.value.widened })
      { env with
        bindings := env.bindings.set s
          (some (Quantity.toTerm { q with value := q.value.widened })) } := by
  refine Ends.bind (.pure q env) (Ends.bind (.environment env) ?_)
  have ha (v : Term) :
      env.assign s v = .ok { env with bindings := env.bindings.set s (some v) } := by
    rw [Environment.assign, h]
    rfl
  rw [ha]
  exact Ends.bind (.pure _ env) (Ends.bind (.setEnvironment env _) (.pure _ _))

/-- What the evaluation of a line does to its environment: an assignment that succeeds changes one
binding, and nothing else changes anything but by commands. -/
inductive Alters (n : Nat) (env : Environment) : Term → Except Stop Value → Environment → Prop where
  | commands {t : Term} {r : Except Stop Value} {env' : Environment} :
      (∀ l e, t = .binary .equals l e → ∃ s, r = .error s) →
      ReflTransGen (Performs n env t) env env' → Alters n env t r env'
  | assignment {s : String} {e : Term} {q : Quantity} : env.checkAssignable s = .ok () →
      Alters n env (.binary .equals (.name s) e) (.ok (some q))
        { env with bindings := env.bindings.set s (some q.toTerm) }

theorem alters_assignment {env env' : Environment} (hs : env.Sound) {l e : Term}
    (he : Expression e) {n : Nat} (hn : n ≤ Host.evaluation) {r : Except Stop Value}
    (h : (evaluateWithin n (.binary .equals l e)).Ends env r env') :
    Alters n env (.binary .equals l e) r env' := by
  cases n with
  | zero =>
    obtain ⟨rfl, rfl⟩ := h.unique (.fail _ env)
    exact .commands (fun _ _ _ => ⟨_, rfl⟩) .refl
  | succ n =>
    rw [evaluateWithin_equals] at h
    obtain ⟨r₁, hnote, -⟩ : Returns env (note (.evaluation (.binary .equals l e))) _ := .note _
    cases r₁ with
    | error s =>
      obtain ⟨rfl, rfl⟩ := h.unique hnote.bind_error
      exact .commands (fun _ _ _ => ⟨_, rfl⟩) .refl
    | ok _ =>
    obtain ⟨r₂, htarget, hr₂⟩ := returns_target env l
    cases r₂ with
    | error s =>
      obtain ⟨rfl, rfl⟩ := h.unique (hnote.bind htarget.bind_error)
      exact .commands (fun _ _ _ => ⟨_, rfl⟩) .refl
    | ok s =>
    obtain ⟨rfl, hassignable⟩ := hr₂ s rfl
    have hn' : n ≤ Host.evaluation := by omega
    have hmono := Performs.mono fun c d us (hc : CarriesOut c d us n env e) =>
      .assigned hnote htarget hc
    obtain ⟨r₃, env₁, hv⟩ := blind_evaluateWithin n e env
    have hlead := (((leads_expression hs he hn').mono hmono).ends hv).1
    cases r₃ with
    | error x =>
      obtain ⟨rfl, rfl⟩ := h.unique (hnote.bind (htarget.bind hv.bind_error))
      exact .commands (fun _ _ _ => ⟨_, rfl⟩) hlead
    | ok v =>
    cases v with
    | none =>
      have hstore : (store s none).Ends env₁
          (.error (.failure (.eval (.noValue Operator.equals.text)))) env₁ :=
        Ends.bind_error (.fail _ env₁)
      obtain ⟨rfl, rfl⟩ := h.unique (hnote.bind (htarget.bind (hv.bind hstore.bind_error)))
      exact .commands (fun _ _ _ => ⟨_, rfl⟩) hlead
    | some q =>
      obtain ⟨rfl, -⟩ := ((secures_expression hs he hn').ends hv).2 _ rfl
      have hstore := ends_store hassignable q
      obtain ⟨rfl, rfl⟩ :=
        h.unique (hnote.bind (htarget.bind (hv.bind (hstore.bind (.pure _ _)))))
      exact .assignment hassignable

theorem alters_line {env env' : Environment} (hs : env.Sound) {t : Term} (ht : IsLine t) {n : Nat}
    (hn : n ≤ Host.evaluation) {r : Except Stop Value} (h : (evaluateWithin n t).Ends env r env') :
    Alters n env t r env' := by
  cases ht with
  | value ht =>
    refine .commands (fun l e he => ?_) ((leads_expression hs ht hn).ends h).1
    subst he
    cases ht with
    | binary ho _ _ => exact absurd rfl ho
  | assignment _ he => exact alters_assignment hs he hn h

/-- What a line comes to, and the environment behind it, by the stage that it reaches. -/
inductive Comes (k : Text.CharClasses) (env : Environment) (line : List Char) :
    Except Stop Value → Environment → Prop where
  | refused {e : LexError} :
      tokenize k line = .error e → Comes k env line (.error (.failure (.lex e))) env
  | blank : tokenize k line = .ok [] → Comes k env line (.ok none) env
  | unread {ts : List Token} {e : ParseError} : tokenize k line = .ok ts →
      parse env.grammarNames env.maxDepth ts = .error e →
        Comes k env line (.error (.failure (.parse e))) env
  | evaluated {ts : List Token} {t : Term} {r : Except Stop Value} {env' : Environment} :
      tokenize k line = .ok ts → parse env.grammarNames env.maxDepth ts = .ok t →
        (evaluate t).Ends env r env' → Comes k env line r env'

theorem runLine_of_ends {k : Text.CharClasses} {env env' : Environment} {line : List Char}
    {r : Except Stop Value} (h : (calculate k line).Ends env r env') :
    (runLine k env line).1 = r ∧ env.after k line = env' := by
  obtain ⟨tr, he⟩ := h []
  have hr : runLine k env line = (r, ⟨env', tr⟩) := he
  rw [Environment.after, hr]
  exact ⟨rfl, rfl⟩

theorem ends_unread {k : Text.CharClasses} {env : Environment} {line : List Char}
    {ts : List Token} {e : ParseError} (hts : tokenize k line = .ok ts) (hne : ts ≠ [])
    (hp : parse env.grammarNames env.maxDepth ts = .error e) :
    (calculate k line).Ends env (.error (.failure (.parse e))) env := by
  refine Ends.bind (.notes _ env) ?_
  rw [hts]
  cases ts with
  | nil => exact absurd rfl hne
  | cons u us =>
    refine Ends.bind (.environment env) (Ends.bind (.notes _ env) ?_)
    rw [parse] at hp
    cases ho : (parseWithVisits env.grammarNames env.maxDepth (u :: us)).outcome with
    | error e' =>
      rw [ho] at hp
      cases hp
      exact .throw _ env
    | ok p =>
      rw [ho] at hp
      cases hp

theorem ends_refused {k : Text.CharClasses} {line : List Char} {e : LexError}
    (hts : tokenize k line = .error e) (env : Environment) :
    (calculate k line).Ends env (.error (.failure (.lex e))) env := by
  refine Ends.bind (.notes _ env) ?_
  rw [hts]
  exact .throw _ env

theorem ends_blank {k : Text.CharClasses} {line : List Char} (hts : tokenize k line = .ok [])
    (env : Environment) : (calculate k line).Ends env (.ok none) env := by
  refine Ends.bind (.notes _ env) ?_
  rw [hts]
  exact .pure _ env

theorem comes_runLine (k : Text.CharClasses) (env : Environment) (line : List Char) :
    Comes k env line (runLine k env line).1 (env.after k line) := by
  have of_ends {r : Except Stop Value} {env' : Environment}
      (h : (calculate k line).Ends env r env') (hc : Comes k env line r env') :
      Comes k env line (runLine k env line).1 (env.after k line) := by
    obtain ⟨rfl, rfl⟩ := runLine_of_ends h
    exact hc
  cases hts : tokenize k line with
  | error e => exact of_ends (ends_refused hts env) (.refused hts)
  | ok ts =>
  by_cases hne : ts = []
  · subst hne
    exact of_ends (ends_blank hts env) (.blank hts)
  cases hp : parse env.grammarNames env.maxDepth ts with
  | error e => exact of_ends (ends_unread hts hne hp) (.unread hts hp)
  | ok t =>
    obtain ⟨r, env', he⟩ := blind_evaluateWithin Host.evaluation t env
    exact of_ends (ends_calculate hts hne hp he) (.evaluated hts hp he)

theorem ends_runLine {k : Text.CharClasses} {env : Environment} {line : List Char}
    {ts : List Token} {t : Term} (hts : tokenize k line = .ok ts)
    (hp : parse env.grammarNames env.maxDepth ts = .ok t) :
    (evaluate t).Ends env (runLine k env line).1 (env.after k line) := by
  have hne : ts ≠ [] := by
    rintro rfl
    obtain ⟨e, he⟩ := parse_nil env.grammarNames env.maxDepth
    rw [hp] at he
    cases he
  obtain ⟨r, env', he⟩ := blind_evaluateWithin Host.evaluation t env
  obtain ⟨rfl, rfl⟩ := runLine_of_ends (ends_calculate hts hne hp he)
  exact he

end UnitCalculator
