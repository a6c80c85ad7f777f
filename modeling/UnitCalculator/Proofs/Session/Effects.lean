import UnitCalculator.Proofs.Session.Levels

/-!
What one command changes. A setting of the output or of the trace is changed by the command for it
alone; a declaration gives every name it takes a place, and changes no value.
-/

set_option autoImplicit false

namespace UnitCalculator

open Run Evaluate

namespace Command

/-- The names that a declaration takes, up to the first token it refuses. -/
def taken (isConstant : String → Bool) : List Token → List String
  | .ident s :: ts => if isConstant s then [] else s :: taken isConstant ts
  | _ => []

theorem ident_mem_of_taken {isConstant : String → Bool} {s : String} {ts : List Token}
    (h : s ∈ taken isConstant ts) : .ident s ∈ ts := by
  fun_induction taken isConstant ts with
  | case1 => cases h
  | case2 t ts _ ih =>
    obtain rfl | h := List.mem_cons.1 h
    · exact List.mem_cons_self
    · exact List.mem_cons_of_mem _ (ih h)
  | case3 => cases h

theorem setOutput_changes (env : Environment) (ts : List Token) :
    ∃ radix group, (setOutput env ts).1 = { env with radix, group } := by
  have hall : ∀ env, ∃ radix group, (outputSettings env ts).1 = { env with radix, group } := by
    induction ts with
    | nil => exact fun env => ⟨env.radix, env.group, rfl⟩
    | cons t ts ih =>
      intro env
      rw [outputSettings]
      split
      · next env' he =>
        obtain ⟨radix, group, h⟩ := ih env'
        rw [h]
        cases t with
        | ident s =>
          obtain ⟨r, -, rfl⟩ := Option.map_eq_some_iff.1 he
          exact ⟨radix, group, rfl⟩
        | int n =>
          rw [outputSetting] at he
          split at he
          · cases he
            exact ⟨radix, group, rfl⟩
          · cases he
        | _ => cases he
      · exact ⟨env.radix, env.group, rfl⟩
  unfold setOutput
  split
  · exact ⟨.decimal, 0, rfl⟩
  · exact hall env

theorem setDebug_changes (env : Environment) (ts : List Token) :
    ∃ debug, (setDebug env ts).1 = { env with debug } := by
  unfold setDebug
  split
  · exact ⟨_, rfl⟩
  · split
    · exact ⟨_, rfl⟩
    · exact ⟨env.debug, rfl⟩
  · exact ⟨env.debug, rfl⟩

/-- What a declaration makes of the bindings: a name that is taken has a place, with the value it
had before if it had one. -/
def Declared (isConstant : String → Bool) (ts : List Token) (x y : Table (Option Term)) : Prop :=
  ∀ s, y.get? s = if s ∈ taken isConstant ts then some (x.get? s).join else x.get? s

theorem Declared.of_taken_nil {isConstant : String → Bool} {ts : List Token}
    (h : taken isConstant ts = []) (x : Table (Option Term)) : Declared isConstant ts x x := by
  intro s
  rw [h]
  rfl

theorem declare_changes {env : Environment} {s : String} (hc : ¬env.isConstant s = true) :
    ∃ x : Table (Option Term), env.declare s = .ok { env with bindings := x } ∧
      ∀ u, x.get? u = if u = s then some (env.bindings.get? s).join else env.bindings.get? u := by
  unfold Environment.declare
  rw [if_neg hc]
  split
  · next hv =>
    refine ⟨env.bindings, rfl, fun u => ?_⟩
    split
    · next hu =>
      subst hu
      obtain ⟨b, hb⟩ := Option.isSome_iff_exists.1 hv
      rw [hb]
      rfl
    · rfl
  · next hv =>
    refine ⟨_, rfl, fun u => ?_⟩
    have hn : env.bindings.get? s = none := by
      simpa [Environment.isVariable, Table.has] using hv
    rw [Table.get?_set, hn]
    rfl

theorem Declared.cons {isConstant : String → Bool} {s : String} {ts : List Token}
    {x y z : Table (Option Term)} (hc : ¬isConstant s = true)
    (hy : ∀ u, y.get? u = if u = s then some (x.get? s).join else x.get? u)
    (hz : Declared isConstant ts y z) : Declared isConstant (.ident s :: ts) x z := by
  intro u
  have htaken : taken isConstant (.ident s :: ts) = s :: taken isConstant ts := by
    rw [taken, if_neg hc]
  rw [hz u, htaken, hy]
  by_cases hu : u = s
  · subst hu
    simp
  · simp [hu]

theorem declareAll_changes (env : Environment) (ts : List Token) : ∃ bindings,
    (declareAll env ts).1 = { env with bindings } ∧
      Declared env.isConstant ts env.bindings bindings := by
  induction ts generalizing env with
  | nil => exact ⟨env.bindings, rfl, .of_taken_nil rfl _⟩
  | cons t ts ih =>
    cases t with
    | ident s =>
      by_cases hc : env.isConstant s = true
      · refine ⟨env.bindings, ?_, .of_taken_nil (by rw [taken, if_pos hc]) _⟩
        simp only [declareAll, Environment.declare, if_pos hc]
      · obtain ⟨x, hx, hg⟩ := declare_changes hc
        obtain ⟨y, hy, hd⟩ := ih { env with bindings := x }
        refine ⟨y, ?_, .cons hc hg hd⟩
        simp only [declareAll, hx]
        exact hy
    | _ => exact ⟨env.bindings, rfl, .of_taken_nil rfl _⟩

end Command

theorem Environment.eq_name_of_command {s : String} {c : Command}
    (h : fresh.commands.get? s = some c) : s = c.name := by
  obtain ⟨d, -, hd⟩ := List.mem_map.1 (Table.mem_of_get? h)
  obtain ⟨rfl, rfl⟩ := Prod.mk.inj hd
  rfl

/-- What the command of a name can make of an environment. -/
inductive Effects (s : String) (ts : List Token) (env : Environment) : Environment → Prop where
  | nothing : Effects s ts env env
  | output (radix : Radix) (group : Nat) :
      s = Command.outputFormat.name → Effects s ts env { env with radix, group }
  | trace (debug : Bool) : s = Command.debug.name → Effects s ts env { env with debug }
  | declaration (bindings : Table (Option Term)) : s = Command.declare.name →
      Command.Declared env.isConstant ts env.bindings bindings →
      Effects s ts env { env with bindings }

theorem Run.Ends.of_environment_bind {α : Type} {f : Environment → Run α} {env env' : Environment}
    {r : Except Stop α} (h : (Run.environment >>= f).Ends env r env') : (f env).Ends env r env' := h

variable [Host]

theorem ends_afterEffect {e : Command.Effect} {env env' : Environment} {r : Except Stop Unit}
    (h : (afterEffect e).Ends env r env') : env' = e.1 := by
  have he : ∃ r', (afterEffect e).Ends env r' e.1 := by
    unfold afterEffect
    cases e.2 with
    | none => exact ⟨_, (Ends.setEnvironment env e.1).bind (.pure () e.1)⟩
    | some c => exact ⟨_, (Ends.setEnvironment env e.1).bind (.fail _ e.1)⟩
  obtain ⟨r', he⟩ := he
  exact (h.unique he).2

theorem ends_declaration {ts : List Token} {env env' : Environment} {r : Except Stop Unit}
    (hc : env.commands = Environment.fresh.commands)
    (h : (command Command.declare.name ts).Ends env r env') :
    env' = (Command.declareAll env ts).1 := by
  unfold command at h
  have h := h.of_environment_bind
  have hs : env.commands.get? Command.declare.name = some .declare := hc ▸ rfl
  rw [hs] at h
  exact ends_afterEffect h

/-- A command does this and nothing else, whether it fails or not. -/
theorem ends_command {s : String} {ts : List Token} {env env' : Environment}
    {r : Except Stop Unit} (hc : env.commands = Environment.fresh.commands)
    (h : (command s ts).Ends env r env') : Effects s ts env env' := by
  unfold command at h
  have h := h.of_environment_bind
  cases hs : env.commands.get? s with
  | none =>
    rw [hs] at h
    rw [(h.unique (.fail _ env)).2]
    exact .nothing
  | some c =>
    have hname : s = c.name := Environment.eq_name_of_command (hc ▸ hs)
    rw [hs] at h
    cases c with
    | outputFormat =>
      obtain ⟨radix, group, he⟩ := Command.setOutput_changes env ts
      rw [ends_afterEffect h, he]
      exact .output radix group hname
    | debug =>
      obtain ⟨debug, he⟩ := Command.setDebug_changes env ts
      rw [ends_afterEffect h, he]
      exact .trace debug hname
    | declare =>
      obtain ⟨bindings, he, hd⟩ := Command.declareAll_changes env ts
      rw [ends_afterEffect h, he]
      exact .declaration bindings hname hd
    | leave =>
      rw [(h.unique (.throw _ env)).2]
      exact .nothing

end UnitCalculator
