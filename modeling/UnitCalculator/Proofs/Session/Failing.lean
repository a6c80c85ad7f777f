import UnitCalculator.Proofs.Session.Course

/-!
What a line that fails leaves behind. A line that is not read leaves nothing; one that is evaluated
may have carried out commands before it failed, and nothing else of it remains.
-/

set_option autoImplicit false

namespace UnitCalculator

open Run Evaluate Relation

/-- The second environment is the first, except that the names of a kind may be declared in it,
without a value, and that the output or the trace may be set, if they may be at all. -/
structure Preserved (declared : String → Prop) (output trace : Prop) (env env' : Environment) :
    Prop where
  constants : env'.constants = env.constants
  functions : env'.functions = env.functions
  commands : env'.commands = env.commands
  maxDepth : env'.maxDepth = env.maxDepth
  bindings : ∀ s, env'.bindings.get? s = env.bindings.get? s ∨
    env.bindings.get? s = none ∧ env'.bindings.get? s = some none ∧ declared s
  output : env'.radix = env.radix ∧ env'.group = env.group ∨ output
  trace : env'.debug = env.debug ∨ trace

namespace Preserved

variable {D D' : String → Prop} {O O' T T' : Prop} {env env₁ env₂ : Environment}

theorem refl (env : Environment) : Preserved D O T env env :=
  ⟨rfl, rfl, rfl, rfl, fun _ => .inl rfl, .inl ⟨rfl, rfl⟩, .inl rfl⟩

theorem trans (h₁ : Preserved D O T env env₁) (h₂ : Preserved D O T env₁ env₂) :
    Preserved D O T env env₂ where
  constants := h₂.constants.trans h₁.constants
  functions := h₂.functions.trans h₁.functions
  commands := h₂.commands.trans h₁.commands
  maxDepth := h₂.maxDepth.trans h₁.maxDepth
  bindings s := by
    obtain h₂ | ⟨hn, hs, hd⟩ := h₂.bindings s
    · rw [h₂]
      exact h₁.bindings s
    · obtain h₁ | ⟨-, hn', -⟩ := h₁.bindings s
      · exact .inr ⟨h₁ ▸ hn, hs, hd⟩
      · rw [hn] at hn'
        cases hn'
  output := by
    obtain ⟨hr, hg⟩ | ho := h₂.output
    · rw [hr, hg]
      exact h₁.output
    · exact .inr ho
  trace := by
    obtain hd | ht := h₂.trace
    · rw [hd]
      exact h₁.trace
    · exact .inr ht

theorem mono (h : Preserved D O T env env₁) (hD : ∀ s, D s → D' s) (hO : O → O') (hT : T → T') :
    Preserved D' O' T' env env₁ where
  __ := h
  bindings s := (h.bindings s).imp_right fun ⟨hn, hs, hd⟩ => ⟨hn, hs, hD s hd⟩
  output := h.output.imp_right hO
  trace := h.trace.imp_right hT

theorem isVariable (h : Preserved D O T env env₁) {x : String} (hx : env.isVariable x = true) :
    env₁.isVariable x = true := by
  unfold Environment.isVariable Table.has at hx ⊢
  obtain hb | ⟨-, hb, -⟩ := h.bindings x
  · rw [hb]
    exact hx
  · rw [hb]
    rfl

theorem of_effects {c : String} {us : List Token} (h : Effects c us env env₁) :
    Preserved (fun s => c = Command.declare.name ∧ s ∈ Command.taken env.isConstant us)
      (c = Command.outputFormat.name) (c = Command.debug.name) env env₁ := by
  cases h with
  | nothing => exact .refl env
  | output radix group hc => exact ⟨rfl, rfl, rfl, rfl, fun _ => .inl rfl, .inr hc, .inl rfl⟩
  | trace debug hc => exact ⟨rfl, rfl, rfl, rfl, fun _ => .inl rfl, .inl ⟨rfl, rfl⟩, .inr hc⟩
  | declaration bindings hc hd =>
    refine ⟨rfl, rfl, rfl, rfl, fun s => ?_, .inl ⟨rfl, rfl⟩, .inl rfl⟩
    rw [hd s]
    split
    · next hs =>
      cases hb : env.bindings.get? s with
      | none => exact .inr ⟨rfl, rfl, hc, hs⟩
      | some b => exact .inl rfl
    · exact .inl rfl

theorem of_performs [Host] {n : Nat} {t : Term} (hc : env.commands = Environment.fresh.commands)
    (h : ReflTransGen (Performs n env t) env env₁) :
    Preserved (fun s => ∃ e us, CarriesOut e Command.declare.name us n env t ∧
        s ∈ Command.taken e.isConstant us)
      (∃ e us, CarriesOut e Command.outputFormat.name us n env t)
      (∃ e us, CarriesOut e Command.debug.name us n env t) env env₁ := by
  induction h with
  | refl => exact .refl env
  | @tail e e' _ hstep ih =>
    obtain ⟨c, us, r, hcarries, he⟩ := hstep
    have heffects := of_effects (ends_command (ih.commands.trans hc) he)
    exact ih.trans (heffects.mono (fun s ⟨hname, hs⟩ => ⟨e, us, hname ▸ hcarries, hs⟩)
      (fun hname => ⟨e, us, hname ▸ hcarries⟩) fun hname => ⟨e, us, hname ▸ hcarries⟩)

end Preserved

/-- The line is read as a term with a call of the command in it. -/
def HoldsCall (k : Text.CharClasses) (env : Environment) (line : List Char) (c : String)
    (us : List Token) : Prop :=
  ∃ ts t, tokenize k line = .ok ts ∧ parse env.grammarNames env.maxDepth ts = .ok t ∧
    Term.Part (.command c us) t

section Host

variable [Host]

theorem not_reading_of_read {k : Text.CharClasses} {env : Environment} (h : Reachable k env)
    {line : List Char} {ts : List Token} {t : Term} (hts : tokenize k line = .ok ts)
    (hp : parse env.grammarNames env.maxDepth ts = .ok t) {f : Failure}
    (hf : LineStops k env.maxDepth line (.failure f)) : ¬(f.kind = .lex ∨ f.kind = .parse) := by
  cases f with
  | lex e =>
    have hf : tokenize k line = .error e := hf
    rw [hts] at hf
    cases hf
  | parse e =>
    obtain ⟨us, hus, hp'⟩ := hf
    rw [hts] at hus
    cases hus
    rw [← h.kept.grammarNames, hp] at hp'
    cases hp'
  | eval e =>
    have hk : (Failure.eval e).kind = if e.isScaleFault then .host else .eval := rfl
    rw [hk]
    split <;> simp
  | unwritten o => simp [Failure.kind]

/-- In every environment that lines lead to, a line that fails changes no builtin and no variable
that has been there; names in its declarations may be there without a value, and its settings may
be in effect. If it is not even read as a term, nothing changes. -/
theorem failing_line_preserves {k : Text.CharClasses} {env : Environment} (h : Reachable k env)
    {line : List Char} {f : Failure} (hf : (runLine k env line).1 = .error (.failure f)) :
    Preserved (fun s => ∃ us, HoldsCall k env line Command.declare.name us ∧ .ident s ∈ us)
        (∃ us, HoldsCall k env line Command.outputFormat.name us)
        (∃ us, HoldsCall k env line Command.debug.name us) env (env.after k line) ∧
      (f.kind = .lex ∨ f.kind = .parse → env.after k line = env) := by
  have ho := h.outcome line
  have hc := comes_runLine k env line
  rw [hf] at ho hc
  generalize env.after k line = env' at hc ⊢
  cases hc with
  | refused _ | unread _ _ => exact ⟨.refl env, fun _ => rfl⟩
  | @evaluated ts t _ _ hts hp he =>
    have ht := (readableLine_of_parse hts hp).isLine
    have ha := alters_line h.sound ht (Nat.le_refl Host.evaluation) he
    refine ⟨?_, fun hk => ?_⟩
    · cases ha with
      | commands _ hreach =>
        have hholds {e : Environment} {c : String} {us : List Token}
            (hc : CarriesOut e c us Host.evaluation env t) : HoldsCall k env line c us :=
          ⟨ts, t, hts, hp, hc.part⟩
        refine (Preserved.of_performs h.kept.commands hreach).mono ?_ ?_ ?_
        · rintro s ⟨e, us, hc, hs⟩
          exact ⟨us, hholds hc, Command.ident_mem_of_taken hs⟩
        · rintro ⟨e, us, hc⟩
          exact ⟨us, hholds hc⟩
        · rintro ⟨e, us, hc⟩
          exact ⟨us, hholds hc⟩
    · exact absurd hk (not_reading_of_read h hts hp ho)

end Host

/-- A declaration has no value to add to. -/
def declaredOperand : List Char := "var(a)+1".toList

theorem ends_declaredOperand : (calculate .standard declaredOperand).Ends .fresh
    (.error (.failure (.eval (.noValue "+"))))
      { Environment.fresh with bindings := [("a", none)] } := by
  have hts : tokenize .standard declaredOperand =
      .ok [.ident "var", .op .openParen, .ident "a", .op .closeParen, .op .plus, .int 1] := by
    refine tokenize_cons rfl rfl (tokenize_cons rfl rfl (tokenize_cons rfl rfl ?_))
    exact tokenize_cons rfl rfl (tokenize_cons rfl rfl (tokenize_cons rfl rfl (tokenize_nil _)))
  refine ends_calculate (t := .binary .plus (.command "var" [.ident "a"]) (.int 1)) hts
    (List.cons_ne_nil _ _) rfl ?_
  exact fun tr => ⟨tr, rfl⟩

theorem failing_line_declares : Reachable .standard .fresh ∧
    ∃ f, (runLine .standard .fresh declaredOperand).1 = .error (.failure f) ∧ f.kind = .eval ∧
      (Environment.fresh.after .standard declaredOperand).bindings.get? "a" = some none ∧
      ∃ us, HoldsCall .standard .fresh declaredOperand Command.declare.name us ∧
        .ident "a" ∈ us := by
  have hs : Reachable .standard .fresh := .start false Environment.defaultDepth
  obtain ⟨hf, he⟩ := runLine_of_ends ends_declaredOperand
  have hb : (Environment.fresh.after .standard declaredOperand).bindings.get? "a" = some none := by
    rw [he]
    rfl
  refine ⟨hs, _, hf, rfl, hb, ?_⟩
  obtain h | ⟨-, -, hc⟩ := (failing_line_preserves hs hf).1.bindings "a"
  · rw [hb] at h
    cases h
  · exact hc

end UnitCalculator
