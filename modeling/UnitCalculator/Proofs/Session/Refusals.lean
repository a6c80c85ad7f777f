import UnitCalculator.Proofs.Session.Effects
import UnitCalculator.Proofs.Session.Integers

/-!
Calls that a command refuses. Two of the commands take their arguments one after the other, so the
arguments in front of the one that is refused are in effect; the trace is only set by a call that is
taken as a whole.
-/

set_option autoImplicit false

namespace UnitCalculator

open Run Evaluate

/-- A name that is not there gets a place without a value. -/
def Table.place (x : Table (Option Term)) (s : String) : Table (Option Term) :=
  if x.has s then x else x.set s none

namespace Table

theorem has_place (x : Table (Option Term)) (s u : String) :
    (x.place s).has u = true ↔ x.has u = true ∨ u = s := by
  unfold place
  split
  · next hs =>
    refine ⟨.inl, fun h => ?_⟩
    obtain h | rfl := h
    · exact h
    · exact hs
  · by_cases hu : u = s
    · simp [has, hu]
    · simp [has, hu]

theorem has_places (x : Table (Option Term)) (l : List String) (u : String) :
    (l.foldl place x).has u = true ↔ x.has u = true ∨ u ∈ l := by
  induction l generalizing x with
  | nil => simp
  | cons s l ih => rw [List.foldl_cons, ih, has_place, List.mem_cons, or_assoc]

theorem places_eq_self {x : Table (Option Term)} {l : List String} :
    l.foldl place x = x ↔ ∀ s ∈ l, x.has s = true := by
  constructor
  · intro h s hs
    have hhas := (has_places x l s).2 (.inr hs)
    rwa [h] at hhas
  · intro h
    induction l with
    | nil => rfl
    | cons s l ih =>
      have hplace : x.place s = x := if_pos (h s List.mem_cons_self)
      rw [List.foldl_cons, hplace]
      exact ih fun u hu => h u (List.mem_cons_of_mem s hu)

end Table

namespace Command

/-! Arguments that are taken one after the other -/

section Loop

variable (take : Environment → Token → Except CommandError Environment)

def takeAll (env : Environment) : List Token → Effect
  | [] => (env, none)
  | t :: ts =>
    match take env t with
    | .ok env => takeAll env ts
    | .error e => (env, some e)

variable {take}

/-- The arguments in front of the one that is refused have been taken, and what they come to is
left. -/
theorem takeAll_refused {P : Environment → Token → Prop}
    {result : Environment → List Token → Environment} (hnil : ∀ env, result env [] = env)
    (hcons : ∀ {env env₁ t}, take env t = .ok env₁ → P env t ∧ (∀ u, P env₁ u → P env u) ∧
      ∀ ts, result env (t :: ts) = result env₁ ts)
    {env env' : Environment} {ts : List Token} {e : CommandError}
    (h : takeAll take env ts = (env', some e)) :
    ∃ before t after, ts = before ++ t :: after ∧ (∀ u ∈ before, P env u) ∧
      env' = result env before ∧ take env' t = .error e := by
  -- What is known of later arguments is about the environment behind the first one.
  induction ts generalizing env with
  | nil => cases h
  | cons t ts ih =>
    rw [takeAll] at h
    split at h
    · next env₁ ht =>
      obtain ⟨before, u, after, rfl, hall, rfl, hu⟩ := ih h
      obtain ⟨hp, hlater, hresult⟩ := hcons ht
      refine ⟨t :: before, u, after, rfl, List.forall_mem_cons.2 ⟨hp, fun v hv => ?_⟩,
        (hresult before).symm, hu⟩
      exact hlater v (hall v hv)
    · next e' ht =>
      cases h
      exact ⟨[], t, ts, rfl, nofun, (hnil _).symm, ht⟩

end Loop

def radix? : Token → Option Radix
  | .ident s => radixName? (lowered s)
  | _ => none

def group? : Token → Option Nat
  | .int n => if 0 ≤ n then some n.toNat else none
  | _ => none

def name? : Token → Option String
  | .ident s => some s
  | _ => none

def IsSetting (t : Token) : Prop := (radix? t).isSome = true ∨ (group? t).isSome = true

def IsDeclarable (isConstant : String → Bool) (t : Token) : Prop :=
  ∃ s, t = .ident s ∧ isConstant s = false

/-- The last radix and the last size of a group are in effect. -/
def withSettings (env : Environment) (ts : List Token) : Environment :=
  { env with
    radix := (ts.filterMap radix?).getLastD env.radix
    group := (ts.filterMap group?).getLastD env.group }

def withNames (env : Environment) (ts : List Token) : Environment :=
  { env with bindings := (ts.filterMap name?).foldl Table.place env.bindings }

def takeSetting (env : Environment) (t : Token) : Except CommandError Environment :=
  match outputSetting env t with
  | some env => .ok env
  | none => .error (.outputFormat t)

def takeName (env : Environment) : Token → Except CommandError Environment
  | .ident s => (env.declare s).mapError .name
  | t => .error (.notName t)

theorem outputSettings_eq_takeAll (env : Environment) (ts : List Token) :
    outputSettings env ts = takeAll takeSetting env ts := by
  induction ts generalizing env with
  | nil => rfl
  | cons t ts ih =>
    rw [outputSettings, takeAll, takeSetting]
    cases outputSetting env t with
    | none => rfl
    | some env => exact ih env

theorem declareAll_eq_takeAll (env : Environment) (ts : List Token) :
    declareAll env ts = takeAll takeName env ts := by
  induction ts generalizing env with
  | nil => rfl
  | cons t ts ih =>
    cases t with
    | ident s =>
      rw [declareAll, takeAll, takeName]
      cases env.declare s with
      | error e => rfl
      | ok env => exact ih env
    | _ => rfl

theorem outputSetting_eq (env : Environment) (t : Token) :
    outputSetting env t = match radix? t, group? t with
      | some r, _ => some { env with radix := r }
      | none, some n => some { env with group := n }
      | none, none => none := by
  cases t with
  | ident s =>
    rw [outputSetting, radix?]
    cases radixName? (lowered s) with
    | none => rfl
    | some r => rfl
  | int n =>
    by_cases hn : 0 ≤ n
    · simp only [outputSetting, radix?, group?, if_pos hn]
    · simp only [outputSetting, radix?, group?, if_neg hn]
  | _ => rfl

theorem takeSetting_ok {env env₁ : Environment} {t : Token} (h : takeSetting env t = .ok env₁) :
    IsSetting t ∧ ∀ ts, withSettings env (t :: ts) = withSettings env₁ ts := by
  rw [takeSetting, outputSetting_eq] at h
  cases hr : radix? t with
  | some r =>
    have hg : group? t = none := by
      cases t with
      | ident s => rfl
      | _ => cases hr
    simp only [hr] at h
    cases h
    refine ⟨.inl (by rw [hr]; rfl), fun ts => ?_⟩
    simp only [withSettings, List.filterMap_cons, hr, hg, List.getLastD_cons]
  | none =>
    cases hg : group? t with
    | some n =>
      simp only [hr, hg] at h
      cases h
      refine ⟨.inr (by rw [hg]; rfl), fun ts => ?_⟩
      simp only [withSettings, List.filterMap_cons, hr, hg, List.getLastD_cons]
    | none =>
      simp only [hr, hg] at h
      cases h

theorem takeSetting_error {env : Environment} {t : Token} {e : CommandError}
    (h : takeSetting env t = .error e) : ¬IsSetting t ∧ e = .outputFormat t := by
  rw [takeSetting, outputSetting_eq] at h
  unfold IsSetting
  cases hr : radix? t with
  | some r => simp [hr] at h
  | none =>
    cases hg : group? t with
    | some n => simp [hr, hg] at h
    | none =>
      simp only [hr, hg] at h
      cases h
      simp

theorem takeName_ok {env env₁ : Environment} {t : Token} (h : takeName env t = .ok env₁) :
    IsDeclarable env.isConstant t ∧ env₁.isConstant = env.isConstant ∧
      ∀ ts, withNames env (t :: ts) = withNames env₁ ts := by
  cases t with
  | ident s =>
    rw [takeName, Environment.declare] at h
    by_cases hc : env.isConstant s = true
    · rw [if_pos hc] at h
      cases h
    · rw [if_neg hc] at h
      have henv : env₁ = { env with bindings := env.bindings.place s } := by
        unfold Table.place
        unfold Environment.isVariable at h
        split at h
        · next hv =>
          rw [if_pos hv]
          cases h
          rfl
        · next hv =>
          rw [if_neg hv]
          cases h
          rfl
      subst henv
      exact ⟨⟨s, rfl, eq_false_of_ne_true hc⟩, rfl, fun ts => rfl⟩
  | _ => cases h

theorem takeName_error {env : Environment} {t : Token} {e : CommandError}
    (h : takeName env t = .error e) :
    (∀ s, t ≠ .ident s) ∧ e = .notName t ∨
      ∃ s, t = .ident s ∧ env.isConstant s = true ∧ e = .name (.declareConstant s) := by
  cases t with
  | ident s =>
    rw [takeName, Environment.declare] at h
    by_cases hc : env.isConstant s = true
    · rw [if_pos hc] at h
      cases h
      exact .inr ⟨s, rfl, hc, rfl⟩
    · rw [if_neg hc] at h
      split at h
      · cases h
      · cases h
  | _ =>
    cases h
    refine .inl ⟨fun s hs => ?_, rfl⟩
    cases hs

/-- The call of a command is refused at one of its arguments, behind those that are taken. -/
inductive Refuses (isConstant : String → Bool) :
    Command → List Token → Token → List Token → CommandError → Prop where
  | setting {before after : List Token} {t : Token} : (∀ u ∈ before, IsSetting u) →
      ¬IsSetting t → Refuses isConstant .outputFormat before t after (.outputFormat t)
  | switch {t : Token} : switchToken? t = none →
      Refuses isConstant .debug [] t [] (.debugArgument t)
  | switches {t u : Token} {us : List Token} :
      Refuses isConstant .debug [] t (u :: us) .debugArguments
  | notName {before after : List Token} {t : Token} : (∀ u ∈ before, IsDeclarable isConstant u) →
      (∀ s, t ≠ .ident s) → Refuses isConstant .declare before t after (.notName t)
  | constant {before after : List Token} {s : String} :
      (∀ u ∈ before, IsDeclarable isConstant u) → isConstant s = true →
      Refuses isConstant .declare before (.ident s) after (.name (.declareConstant s))

/-- What the arguments of a command come to that it takes one after the other. -/
def leaves (env : Environment) : Command → List Token → Environment
  | outputFormat, ts => withSettings env ts
  | declare, ts => withNames env ts
  | debug, _ | leave, _ => env

/-- The call is refused at one of its arguments, and the environment that is left is what the
arguments in front of that one come to. -/
def StopsAt (env : Environment) (c : Command) (ts : List Token) (error : CommandError)
    (env' : Environment) : Prop :=
  ∃ before t after, ts = before ++ t :: after ∧ c.Refuses env.isConstant before t after error ∧
    env' = c.leaves env before

/-- The arguments ask for nothing that is not the case. -/
def Redundant (env : Environment) : Command → List Token → Prop
  | outputFormat, ts => (∀ r ∈ (ts.filterMap radix?).getLast?, r = env.radix) ∧
      ∀ n ∈ (ts.filterMap group?).getLast?, n = env.group
  | declare, ts => ∀ s, .ident s ∈ ts → env.isVariable s = true
  | debug, _ | leave, _ => True

theorem mem_names {s : String} {ts : List Token} : s ∈ ts.filterMap name? ↔ .ident s ∈ ts := by
  rw [List.mem_filterMap]
  constructor
  · rintro ⟨t, ht, hs⟩
    cases t with
    | ident u =>
      cases hs
      exact ht
    | _ => cases hs
  · exact fun h => ⟨_, h, rfl⟩

theorem leaves_eq_self {env : Environment} {c : Command} {ts : List Token} :
    c.leaves env ts = env ↔ c.Redundant env ts := by
  cases c with
  | outputFormat =>
    have last_eq {α : Type} {l : List α} {a : α} :
        l.getLastD a = a ↔ ∀ b ∈ l.getLast?, b = a := by
      rw [List.getLastD_eq_getLast?]
      cases l.getLast? <;> simp
    rw [leaves, withSettings, Redundant, ← last_eq, ← last_eq]
    exact ⟨fun h => ⟨congrArg Environment.radix h, congrArg Environment.group h⟩,
      fun ⟨hr, hg⟩ => by rw [hr, hg]⟩
  | declare =>
    have hnames : withNames env ts = env ↔
        (ts.filterMap name?).foldl Table.place env.bindings = env.bindings :=
      ⟨congrArg Environment.bindings, fun h => by rw [withNames, h]⟩
    rw [leaves, hnames, Table.places_eq_self]
    exact forall_congr' fun s => imp_congr_left mem_names
  | debug => exact iff_of_true rfl trivial
  | leave => exact iff_of_true rfl trivial

variable {env env' : Environment} {ts : List Token} {e : CommandError}

theorem setOutput_refused (h : setOutput env ts = (env', some e)) :
    StopsAt env .outputFormat ts e env' := by
  unfold setOutput at h
  split at h
  · cases h
  · rw [outputSettings_eq_takeAll] at h
    obtain ⟨before, t, after, hts, hall, henv, ht⟩ := takeAll_refused (P := fun _ => IsSetting)
      (fun env => rfl) (fun ht => ⟨(takeSetting_ok ht).1, fun _ => id, (takeSetting_ok ht).2⟩) h
    obtain ⟨hn, rfl⟩ := takeSetting_error ht
    exact ⟨before, t, after, hts, .setting hall hn, henv⟩

theorem setDebug_refused (h : setDebug env ts = (env', some e)) :
    StopsAt env .debug ts e env' := by
  match ts with
  | [] => cases h
  | [t] =>
    rw [setDebug] at h
    split at h
    · cases h
    · next ht =>
      cases h
      exact ⟨[], t, [], rfl, .switch ht, rfl⟩
  | t :: u :: us =>
    cases h
    exact ⟨[], t, u :: us, rfl, .switches, rfl⟩

theorem declareAll_refused (h : declareAll env ts = (env', some e)) :
    StopsAt env .declare ts e env' := by
  rw [declareAll_eq_takeAll] at h
  obtain ⟨before, t, after, hts, hall, henv, ht⟩ :=
    takeAll_refused (P := fun env => IsDeclarable env.isConstant) (fun env => rfl) (fun ht => by
      obtain ⟨hd, hc, hnext⟩ := takeName_ok ht
      exact ⟨hd, fun u hu => hc ▸ hu, hnext⟩) h
  have hc : env'.isConstant = env.isConstant := by
    rw [henv]
    rfl
  obtain ⟨hn, rfl⟩ | ⟨s, rfl, hs, rfl⟩ := takeName_error ht
  · exact ⟨before, t, after, hts, .notName hall hn, henv⟩
  · exact ⟨before, .ident s, after, hts, .constant hall (hc ▸ hs), henv⟩

end Command

section Host

variable [Host]

theorem eq_of_command_failure {c : CommandError} {e : EvalError}
    (h : (EvalError.command c).failure = .eval e) : e = .command c := by
  cases ho : c.obstacle with
  | none =>
    rw [EvalError.failure_of_none (e := .command c) ho] at h
    cases h
    rfl
  | some o =>
    rw [EvalError.failure_of_some (e := .command c) ho, CommandError.obstacle_eq_some ho] at h
    cases h

theorem afterEffect_refused (env env₁ : Environment) (c : CommandError) :
    (afterEffect (env₁, some c)).Ends env (.error (.failure (EvalError.command c).failure)) env₁ :=
  (Ends.setEnvironment env env₁).bind (.fail _ env₁)

theorem of_afterEffect_fails {x : Command.Effect} {env env' : Environment} {e : EvalError}
    (h : (afterEffect x).Ends env (.error (.failure (.eval e))) env') :
    ∃ error, x = (env', some error) ∧ e = .command error := by
  obtain ⟨env₁, none | error⟩ := x
  · have hx : (afterEffect (env₁, none)).Ends env (.ok ()) env₁ :=
      (Ends.setEnvironment env env₁).bind (.pure () env₁)
    cases (h.unique hx).1
  · obtain ⟨he, rfl⟩ := h.unique (afterEffect_refused env env₁ error)
    exact ⟨error, rfl, eq_of_command_failure (Stop.failure.inj (Except.error.inj he)).symm⟩

/-- A command can only be too long to be written, and that is no error of the evaluation. -/
theorem note_command_fails (s : String) (ts : List Token) (env : Environment) :
    (note (.evaluation (.command s ts))).Ends env (.ok ()) env ∨
      (note (.evaluation (.command s ts))).Ends env (.error (.failure (.unwritten .tooLong))) env := by
  have hpos := Host.writing_ge
  obtain ⟨n, hn⟩ : ∃ n, Host.writing = n + 1 := ⟨Host.writing - 1, by omega⟩
  refine (note_ends _ env).imp_right fun ⟨_, o, ho, h⟩ => ?_
  obtain ⟨t, ht, ho⟩ := List.exists_of_findSome?_eq_some ho
  obtain rfl := List.mem_singleton.1 ht
  rw [hn, Term.obstacle] at ho
  obtain ⟨t, -, ho⟩ := List.exists_of_findSome?_eq_some ho
  obtain rfl := Token.obstacle_eq_some ho
  exact h

theorem command_of_evaluate_fails {n : Nat} {env env' : Environment} {s : String}
    {ts : List Token} {e : EvalError}
    (h : (evaluateWithin (n + 1) (.command s ts)).Ends env (.error (.failure (.eval e))) env') :
    (command s ts).Ends env (.error (.failure (.eval e))) env' := by
  obtain hnote | hnote := note_command_fails s ts env
  · obtain ⟨r, env₁, hc⟩ := blind_command s ts env
    cases r with
    | ok a => cases (h.unique (hnote.bind (hc.bind (.pure none env₁)))).1
    | error stop =>
      obtain ⟨he, rfl⟩ := h.unique (hnote.bind hc.bind_error)
      cases he
      exact hc
  · cases (h.unique hnote.bind_error).1

theorem stopsAt_of_command_fails {env env' : Environment} {s : String} {c : Command}
    {ts : List Token} {e : EvalError} (hs : env.commands.get? s = some c)
    (h : (command s ts).Ends env (.error (.failure (.eval e))) env') :
    ∃ error, e = .command error ∧ c.StopsAt env ts error env' := by
  unfold command at h
  have h := h.of_environment_bind
  rw [hs] at h
  cases c with
  | outputFormat =>
    obtain ⟨error, hx, he⟩ := of_afterEffect_fails h
    exact ⟨error, he, Command.setOutput_refused hx⟩
  | debug =>
    obtain ⟨error, hx, he⟩ := of_afterEffect_fails h
    exact ⟨error, he, Command.setDebug_refused hx⟩
  | declare =>
    obtain ⟨error, hx, he⟩ := of_afterEffect_fails h
    exact ⟨error, he, Command.declareAll_refused hx⟩
  | leave => cases (h.unique (.throw _ env)).1

/-- A call that fails, wherever it stands, has no command to call, and leaves everything as it was,
or is refused at one of its arguments, and leaves what the arguments in front of that one come to.
So it leaves everything as it was exactly if those arguments ask for nothing new. -/
theorem refused_call_leaves {n : Nat} {env env' : Environment} {s : String} {ts : List Token}
    {e : EvalError}
    (h : (evaluateWithin (n + 1) (.command s ts)).Ends env (.error (.failure (.eval e))) env') :
    env.commands.get? s = none ∧ e = .unknownCommand s ∧ env' = env ∨
      ∃ c before t after error, env.commands.get? s = some c ∧ ts = before ++ t :: after ∧
        e = .command error ∧ c.Refuses env.isConstant before t after error ∧
          env' = c.leaves env before ∧ (env' = env ↔ c.Redundant env before) := by
  have h := command_of_evaluate_fails h
  cases hs : env.commands.get? s with
  | none =>
    unfold command at h
    have h := h.of_environment_bind
    rw [hs] at h
    obtain ⟨he, rfl⟩ := h.unique (.fail _ env)
    cases he
    exact .inl ⟨rfl, rfl, rfl⟩
  | some c =>
    obtain ⟨error, he, before, t, after, hts, hrefuses, henv⟩ := stopsAt_of_command_fails hs h
    exact .inr ⟨c, before, t, after, error, rfl, hts, he, hrefuses, henv,
      henv ▸ Command.leaves_eq_self⟩

end Host

def halfFormat : Term := .command Command.outputFormat.name [.int 3, .float 1.5]

theorem ends_halfFormat : (evaluate halfFormat).Ends .fresh
    (.error (.failure (.eval (.command (.outputFormat (.float 1.5))))))
      { Environment.fresh with group := 3 } :=
  fun tr => ⟨tr, rfl⟩

def halfDeclaration : Term := .command Command.declare.name [.ident "a", .int 1]

theorem ends_halfDeclaration : (evaluate halfDeclaration).Ends .fresh
    (.error (.failure (.eval (.command (.notName (.int 1))))))
      { Environment.fresh with bindings := [("a", none)] } := by
  have hone : intObstacle 1 = none := intObstacle_of_inRange (by decide)
  have hwritten : (EvalError.command (.notName (.int 1))).failure = .eval _ :=
    EvalError.failure_of_none (e := .command (.notName (.int 1))) hone
  have hnote : (note (.evaluation halfDeclaration)).Ends .fresh (.ok ()) .fresh :=
    note_evaluation fun hd => absurd hd (by decide)
  have hcommand : (command Command.declare.name [.ident "a", .int 1]).Ends .fresh _ _ :=
    (Ends.environment .fresh).bind (afterEffect_refused .fresh _ (.notName (.int 1)))
  rw [hwritten] at hcommand
  exact hnote.bind hcommand.bind_error

theorem refused_call_leaves_group :
    (evaluate halfFormat).Ends .fresh
        (.error (.failure (.eval (.command (.outputFormat (.float 1.5))))))
          { Environment.fresh with group := 3 } ∧
      ∃ c before t after error, Environment.fresh.commands.get? Command.outputFormat.name = some c ∧
        [.int 3, .float 1.5] = before ++ t :: after ∧
          c.Refuses Environment.fresh.isConstant before t after error ∧
            { Environment.fresh with group := 3 } = c.leaves .fresh before ∧
              ¬c.Redundant .fresh before := by
  refine ⟨ends_halfFormat, ?_⟩
  obtain ⟨hn, -⟩ | ⟨c, before, t, after, error, hc, hts, -, hr, he, hiff⟩ :=
    refused_call_leaves ends_halfFormat
  · cases hn
  · refine ⟨c, before, t, after, error, hc, hts, hr, he, fun hd => ?_⟩
    cases congrArg Environment.group (hiff.2 hd)

theorem refused_call_changes :
    (∃ e env', (evaluate halfFormat).Ends .fresh (.error (.failure (.eval e))) env' ∧
        env'.group ≠ Environment.fresh.group) ∧
      ∃ e env', (evaluate halfDeclaration).Ends .fresh (.error (.failure (.eval e))) env' ∧
        env'.isVariable "a" ≠ Environment.fresh.isVariable "a" :=
  ⟨⟨_, _, ends_halfFormat, by decide⟩, ⟨_, _, ends_halfDeclaration, by decide⟩⟩

end UnitCalculator
