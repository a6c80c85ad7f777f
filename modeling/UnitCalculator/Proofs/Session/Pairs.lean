import UnitCalculator.Proofs.Session.Integers
import UnitCalculator.Proofs.Session.Sound

/-!
Two runs of one computation, in environments that differ in the settings of output and trace. The
settings are read in two places only: the trace has to be written where it is wanted, and `debug()`
turns it over. So the runs end alike where both trace or neither does, and else until the one that
traces comes to something that cannot be written.
-/

set_option autoImplicit false

namespace UnitCalculator

open Run Evaluate

/-! Computations that look at nothing -/

/-- The computation ends in one way, wherever it begins, and leaves the environment as it is. -/
def Steady {α : Type} (x : Run α) : Prop := ∃ r, ∀ env, x.Ends env r env

namespace Steady

variable {α β : Type} {x : Run α}

theorem pure (a : α) : Steady (Pure.pure a : Run α) := ⟨_, Ends.pure a⟩

theorem throw (s : Stop) : Steady (throw s : Run α) := ⟨_, Ends.throw s⟩

theorem bind {f : α → Run β} (hx : Steady x) (hf : ∀ a, Steady (f a)) : Steady (x >>= f) := by
  obtain ⟨r, hr⟩ := hx
  cases r with
  | error s => exact ⟨_, fun env => (hr env).bind_error⟩
  | ok a =>
    obtain ⟨r, hf⟩ := hf a
    exact ⟨r, fun env => (hr env).bind (hf env)⟩

variable [Host]

theorem fail (e : EvalError) : Steady (failWith e : Run α) := throw _

theorem orFault (y : Except Fault α) : Steady (orFault y) := ⟨_, Ends.orFault y⟩

theorem orUnitError (y : Except UnitError α) : Steady (orUnitError y) := by
  cases y with
  | ok a => exact pure a
  | error e => exact fail _

theorem orNameError (y : Except NameError α) : Steady (orNameError y) := by
  cases y with
  | ok a => exact pure a
  | error e => exact fail _

theorem checkHeight (t : Term) : Steady (checkHeight t) := by
  unfold Evaluate.checkHeight
  split
  · exact fail _
  · exact pure _

theorem operand (s : String) (v : Value) : Steady (operand s v) := by
  cases v with
  | none => exact fail _
  | some q => exact pure q

theorem uniform (o : Operator) (f : Number → Number → Except Fault Number) (p q : Quantity) :
    Steady (uniform o f p q) := by
  have hunit : Steady (sameUnit o p q) := by
    unfold sameUnit
    split
    · exact pure _
    · exact fail _
  exact hunit.bind fun _ => (orFault _).bind fun _ => pure _

theorem sign (o : Operator) (v : Value) : Steady (sign o v) := by
  refine (operand _ v).bind fun q => ?_
  split
  · exact pure _
  · exact (orFault _).bind fun _ => pure _
  · exact fail _

theorem apply (s : String) (f : Function) (as : List Number) :
    Steady (Evaluate.apply s f as) := by
  unfold Evaluate.apply
  split
  · exact pure _
  · exact fail _

end Steady

/-! Environments that differ in their settings -/

/-- The environments differ in the settings of output and trace at most. -/
structure Environment.Agrees (e₁ e₂ : Environment) : Prop where
  constants : e₂.constants = e₁.constants
  bindings : e₂.bindings = e₁.bindings
  functions : e₂.functions = e₁.functions
  commands : e₂.commands = e₁.commands
  maxDepth : e₂.maxDepth = e₁.maxDepth

namespace Environment

variable {e₁ e₂ : Environment}

theorem Agrees.lookup (h : e₁.Agrees e₂) (s : String) : e₂.lookup s = e₁.lookup s := by
  unfold Environment.lookup
  rw [h.constants, h.bindings]

theorem Agrees.checkAssignable (h : e₁.Agrees e₂) (s : String) :
    e₂.checkAssignable s = e₁.checkAssignable s := by
  unfold Environment.checkAssignable isConstant isVariable
  rw [h.constants, h.bindings]

theorem Agrees.grammarNames (h : e₁.Agrees e₂) : e₂.grammarNames = e₁.grammarNames := by
  unfold Environment.grammarNames isConstant isFunction isCommand
  rw [h.constants, h.functions, h.commands]

theorem Agrees.set (h : e₁.Agrees e₂) (s : String) (v : Option Term) :
    Agrees { e₁ with bindings := e₁.bindings.set s v }
      { e₂ with bindings := e₂.bindings.set s v } :=
  ⟨h.constants, congrArg (Table.set s v) h.bindings, h.functions, h.commands, h.maxDepth⟩

end Environment

/-! Units of values -/

theorem height_multiply_le (p q : Option Fraction) :
    (Units.multiply (unitTerm p) (unitTerm q)).height ≤ 4 := by
  cases p <;> cases q <;> simp [Units.multiply, unitTerm, Units.unwrap, Term.height]

theorem height_divide_le (p q : Option Fraction) :
    (Units.divide (unitTerm p) (unitTerm q)).height ≤ 4 := by
  cases p <;> cases q <;> simp [Units.divide, unitTerm, Units.unwrap, Term.height, Term.int]

theorem height_power_le (p : Option Fraction) (n : Int) :
    (Units.power (unitTerm p) n).height ≤ 4 := by
  cases p with
  | none => simp [Units.power, unitTerm, Units.unwrap, Term.height]
  | some f =>
    simp only [Units.power, unitTerm, Units.unwrap]
    split
    · decide
    · split
      · simp [Units.divide, Units.unwrap, Term.height, Term.int]
      · simp [Term.height, Term.int]

variable [Host]

def Environment.Writable (env : Environment) : Prop :=
  ∀ s t, env.lookup s = .ok t → t.height ≤ Host.writing

/-- The environments agree; if the trace matters, both trace or neither does. -/
structure Paired (traced : Prop) (e₁ e₂ : Environment) : Prop where
  agrees : e₁.Agrees e₂
  writable : e₁.Writable
  trace : traced → e₂.debug = e₁.debug

namespace Environment

theorem Writable.set {env : Environment} (h : env.Writable) {s : String} {v : Option Term}
    (hv : ∀ t, v = some t → t.height ≤ Host.writing) :
    Writable { env with bindings := env.bindings.set s v } := by
  intro u t ht
  rw [lookup_eq_ok, Table.get?_set] at ht
  by_cases hu : u = s
  · rw [if_pos hu] at ht
    obtain ht | ⟨-, ht⟩ := ht
    · exact h u t (lookup_eq_ok.2 (.inl ht))
    · exact hv t (Option.some.inj ht)
  · rw [if_neg hu] at ht
    exact h u t (lookup_eq_ok.2 ht)

theorem height_toTerm_le (q : Quantity) : q.toTerm.height ≤ Host.writing := by
  have hw := Host.writing_ge
  have hq := q.height_toTerm
  omega

end Environment

namespace Paired

variable {traced : Prop} {e₁ e₂ : Environment} (h : Paired traced e₁ e₂)

include h

theorem settings {d₁ d₂ : Bool} (hd : traced → d₂ = d₁) (r₁ r₂ : Radix) (g₁ g₂ : Nat) :
    Paired traced { e₁ with debug := d₁, radix := r₁, group := g₁ }
      { e₂ with debug := d₂, radix := r₂, group := g₂ } :=
  ⟨⟨h.agrees.constants, h.agrees.bindings, h.agrees.functions, h.agrees.commands,
    h.agrees.maxDepth⟩, h.writable, hd⟩

theorem set (s : String) {v : Option Term} (hv : ∀ t, v = some t → t.height ≤ Host.writing) :
    Paired traced { e₁ with bindings := e₁.bindings.set s v }
      { e₂ with bindings := e₂.bindings.set s v } :=
  ⟨h.agrees.set s v, h.writable.set hv, h.trace⟩

end Paired

namespace Command

def Together (traced : Prop) (x y : Effect) : Prop := Paired traced x.1 y.1 ∧ y.2 = x.2

variable {traced : Prop} {e₁ e₂ : Environment} (h : Paired traced e₁ e₂)

include h

theorem together_outputSettings (ts : List Token) :
    Together traced (outputSettings e₁ ts) (outputSettings e₂ ts) := by
  induction ts generalizing e₁ e₂ with
  | nil => exact ⟨h, rfl⟩
  | cons t ts ih =>
    unfold outputSettings
    cases t with
    | ident s =>
      simp only [outputSetting]
      cases radixName? (lowered s) with
      | none => exact ⟨h, rfl⟩
      | some r => exact ih (h.settings h.trace r r _ _)
    | int n =>
      simp only [outputSetting]
      by_cases hn : 0 ≤ n
      · simp only [if_pos hn]
        exact ih (h.settings h.trace _ _ n.toNat n.toNat)
      · simp only [if_neg hn]
        exact ⟨h, rfl⟩
    | float x | op o => exact ⟨h, rfl⟩

theorem together_setOutput (ts : List Token) :
    Together traced (setOutput e₁ ts) (setOutput e₂ ts) := by
  unfold setOutput
  split
  · exact ⟨h.settings h.trace .decimal .decimal 0 0, rfl⟩
  · exact together_outputSettings h ts

theorem together_setDebug (ts : List Token) :
    Together traced (setDebug e₁ ts) (setDebug e₂ ts) := by
  unfold setDebug
  split
  · exact ⟨h.settings (fun ht => congrArg not (h.trace ht)) _ _ _ _, rfl⟩
  · split
    · next b _ => exact ⟨h.settings (fun _ => rfl) _ _ _ _, rfl⟩
    · exact ⟨h, rfl⟩
  · exact ⟨h, rfl⟩

theorem declare_paired (s : String) :
    (∀ e, e₁.declare s = .error e → e₂.declare s = .error e) ∧
      ∀ e, e₁.declare s = .ok e → ∃ e', e₂.declare s = .ok e' ∧ Paired traced e e' := by
  have hc : e₂.isConstant s = e₁.isConstant s := congrArg (Table.has s) h.agrees.constants
  have hv : e₂.isVariable s = e₁.isVariable s := congrArg (Table.has s) h.agrees.bindings
  unfold Environment.declare
  rw [hc, hv]
  split
  · exact ⟨fun _ he => he, nofun⟩
  · split
    · refine ⟨nofun, fun e he => ?_⟩
      cases he
      exact ⟨e₂, rfl, h⟩
    · refine ⟨nofun, fun e he => ?_⟩
      cases he
      exact ⟨_, rfl, h.set s nofun⟩

theorem together_declareAll (ts : List Token) :
    Together traced (declareAll e₁ ts) (declareAll e₂ ts) := by
  induction ts generalizing e₁ e₂ with
  | nil => exact ⟨h, rfl⟩
  | cons t ts ih =>
    cases t with
    | ident s =>
      obtain ⟨herror, hok⟩ := declare_paired h s
      simp only [declareAll]
      cases hd : e₁.declare s with
      | error e =>
        rw [herror e hd]
        exact ⟨h, rfl⟩
      | ok e =>
        obtain ⟨e', hd', h'⟩ := hok e hd
        rw [hd']
        exact ih h'
    | int n | float x | op o => exact ⟨h, rfl⟩

end Command

/-! Two runs -/

/-- One of the computations ends at a text that cannot be written, and if the text is low enough, for
an integer in it. -/
def Unwritten (low : Prop) {α : Type} (x y : Run α) (e₁ e₂ : Environment) : Prop :=
  ∃ o e', (low → o = .tooLong) ∧ (x.Ends e₁ (.error (.failure (Obstacle.failure o))) e' ∨
    y.Ends e₂ (.error (.failure (Obstacle.failure o))) e')

/-- Begun in paired environments, the computations end alike and leave paired ones, unless one of them
alone traces and cannot. -/
def Alike (traced low : Prop) {α : Type} (x y : Run α) : Prop :=
  ∀ e₁ e₂, Paired traced e₁ e₂ →
    (∃ r e₁' e₂', x.Ends e₁ r e₁' ∧ y.Ends e₂ r e₂' ∧ Paired traced e₁' e₂') ∨
      ¬traced ∧ Unwritten low x y e₁ e₂

namespace Alike

variable {α β : Type} {traced low : Prop} {x y : Run α}

theorem of_steady (h : Steady x) : Alike traced low x x := by
  intro e₁ e₂ hp
  obtain ⟨r, hr⟩ := h
  exact .inl ⟨r, e₁, e₂, hr e₁, hr e₂, hp⟩

theorem pure (a : α) : Alike traced low (Pure.pure a : Run α) (Pure.pure a) := of_steady (.pure a)

theorem fail (e : EvalError) : Alike traced low (failWith e : Run α) (failWith e) :=
  of_steady (.fail e)

theorem mono {low' : Prop} (h : Alike traced low x y) (hlow : low' → low) :
    Alike traced low' x y := by
  intro e₁ e₂ hp
  exact (h e₁ e₂ hp).imp_right fun ⟨ht, o, e', ho, he⟩ => ⟨ht, o, e', ho ∘ hlow, he⟩

theorem bind {f g : α → Run β} (hx : Alike traced low x y)
    (hf : ∀ a, Alike traced low (f a) (g a)) : Alike traced low (x >>= f) (y >>= g) := by
  intro e₁ e₂ hp
  obtain ⟨r, e₁', e₂', h₁, h₂, hp'⟩ | ⟨ht, o, e', ho, he⟩ := hx e₁ e₂ hp
  · cases r with
    | error s => exact .inl ⟨_, e₁', e₂', h₁.bind_error, h₂.bind_error, hp'⟩
    | ok a =>
      obtain ⟨r, e₁'', e₂'', h₁', h₂', hp''⟩ | ⟨ht, o, e', ho, he⟩ := hf a e₁' e₂' hp'
      · exact .inl ⟨r, e₁'', e₂'', h₁.bind h₁', h₂.bind h₂', hp''⟩
      · exact .inr ⟨ht, o, e', ho, he.imp h₁.bind h₂.bind⟩
  · exact .inr ⟨ht, o, e', ho, he.imp Ends.bind_error Ends.bind_error⟩

theorem after {f g : α → Run β} (hx : Steady x) (hf : ∀ a, Alike traced low (f a) (g a)) :
    Alike traced low (x >>= f) (x >>= g) := (of_steady hx).bind hf

theorem environment {f g : Environment → Run β}
    (hf : ∀ e₁ e₂, Paired traced e₁ e₂ → Alike traced low (f e₁) (g e₂)) :
    Alike traced low (environment >>= f) (environment >>= g) := by
  intro e₁ e₂ hp
  have h₁ := Ends.environment e₁
  have h₂ := Ends.environment e₂
  obtain ⟨r, e₁', e₂', h₁', h₂', hp'⟩ | ⟨ht, o, e', ho, he⟩ := hf e₁ e₂ hp e₁ e₂ hp
  · exact .inl ⟨r, e₁', e₂', h₁.bind h₁', h₂.bind h₂', hp'⟩
  · exact .inr ⟨ht, o, e', ho, he.imp h₁.bind h₂.bind⟩

theorem setEnvironment {e₁ e₂ : Environment} (h : Paired traced e₁ e₂) :
    Alike traced low (setEnvironment e₁) (setEnvironment e₂) :=
  fun e e' _ => .inl ⟨_, e₁, e₂, .setEnvironment e e₁, .setEnvironment e' e₂, h⟩

theorem mapM {f g : α → Run β} (as : List α) (h : ∀ a ∈ as, Alike traced low (f a) (g a)) :
    Alike traced low (as.mapM f) (as.mapM g) := by
  induction as with
  | nil => exact pure []
  | cons a as ih =>
    rw [List.mapM_cons, List.mapM_cons]
    have has := ih fun b hb => h b (List.mem_cons_of_mem a hb)
    exact (h a List.mem_cons_self).bind fun _ => has.bind fun _ => pure _

theorem note {r : Remark} (h : low → ∀ t ∈ r.terms, t.height ≤ Host.writing) :
    Alike traced low (note r) (note r) := by
  intro e₁ e₂ hp
  cases ho : r.obstacle with
  | none => exact .inl ⟨_, e₁, e₂, .note fun _ => ho, .note fun _ => ho, hp⟩
  | some o =>
    have hlow (hl : low) : o = .tooLong := by
      obtain ⟨t, ht, ho⟩ := List.exists_of_findSome?_eq_some ho
      exact Term.obstacle_eq_tooLong (h hl t ht) ho
    have huntraced {e : Environment} (hd : ¬e.debug = true) : (Run.note r).Ends e (.ok ()) e :=
      .note fun h => absurd h hd
    by_cases h₁ : e₁.debug = true
    · have he₁ := Ends.note_unwritten h₁ ho
      by_cases h₂ : e₂.debug = true
      · exact .inl ⟨_, e₁, e₂, he₁, .note_unwritten h₂ ho, hp⟩
      · exact .inr ⟨fun ht => h₂ ((hp.trace ht).trans h₁), o, e₁, hlow, .inl he₁⟩
    · by_cases h₂ : e₂.debug = true
      · exact .inr ⟨fun ht => h₁ ((hp.trace ht).symm.trans h₂), o, e₂, hlow,
          .inr (.note_unwritten h₂ ho)⟩
      · exact .inl ⟨_, e₁, e₂, huntraced h₁, huntraced h₂, hp⟩

theorem canonical {a : Number} {u : Term}
    (hu : low → (Term.number a u).height ≤ Host.writing) :
    Alike traced low (canonical a u) (canonical a u) := by
  have hc : Alike traced low (orUnitError (Units.canonicalize a u)) _ :=
    of_steady (.orUnitError _)
  unfold Evaluate.canonical
  split
  · exact hc
  · have hnote : Alike traced low (Run.note (.canonicalization a u)) _ :=
      note fun hl => List.forall_mem_singleton.2 (hu hl)
    exact hnote.bind fun _ => hc

theorem canonical_of_le {a : Number} {u : Term} (hu : u.height ≤ 4) :
    Alike traced low (Evaluate.canonical a u) (Evaluate.canonical a u) := by
  have hw := Host.writing_ge
  have hh : (Term.number a u).height = 1 + u.height := rfl
  exact canonical fun _ => by omega

theorem uniform (o : Operator) (f : Number → Number → Except Fault Number) (p q : Quantity) :
    Alike traced low (uniform o f p q) (uniform o f p q) := of_steady (.uniform o f p q)

theorem multiply (p q : Quantity) : Alike traced low (multiply p q) (multiply p q) :=
  after (.orFault _) fun _ => canonical_of_le (height_multiply_le p.unit q.unit)

theorem divide (p q : Quantity) : Alike traced low (divide p q) (divide p q) :=
  after (.orFault _) fun _ => canonical_of_le (height_divide_le p.unit q.unit)

theorem power (p q : Quantity) : Alike traced low (power p q) (power p q) := by
  unfold Evaluate.power
  split
  · exact fail _
  · refine after (.orFault _) fun _ => ?_
    split
    · exact pure _
    · next u _ =>
      split
      · exact canonical_of_le (height_power_le (some u) _)
      · exact fail _

theorem combine (o : Operator) (p q : Quantity) :
    Alike traced low (combine o p q) (combine o p q) := by
  cases o with
  | plus | minus | percent | parallel => exact uniform _ _ p q
  | times => exact multiply p q
  | slash => exact divide p q
  | caret => exact power p q
  | _ => exact fail _

theorem binary (o : Operator) (v w : Value) :
    Alike traced low (binary o v w) (binary o v w) := by
  refine after (.operand _ v) fun p => after (.operand _ w) fun q => ?_
  split
  · have hnote : Alike traced low (Run.note (.operation o p q)) _ := note fun _ =>
      List.forall_mem_cons.2 ⟨Environment.height_toTerm_le p,
        List.forall_mem_singleton.2 (Environment.height_toTerm_le q)⟩
    exact hnote.bind fun _ => combine o p q
  · exact combine o p q

theorem target (t : Term) : Alike traced low (target t) (target t) := by
  unfold Evaluate.target
  split
  · refine environment fun e₁ e₂ h => ?_
    rw [h.agrees.checkAssignable]
    exact after (.orNameError _) fun _ => pure _
  · exact fail _

theorem store (s : String) (v : Value) : Alike traced low (store s v) (store s v) := by
  refine after (.operand _ v) fun q => environment fun e₁ e₂ h => ?_
  unfold Environment.assign
  rw [h.agrees.checkAssignable]
  cases e₁.checkAssignable s with
  | error e => exact fail _
  | ok _ =>
    have hset := h.set s (v := some (Quantity.toTerm { q with value := q.value.widened }))
      fun t ht => Option.some.inj ht ▸ Environment.height_toTerm_le _
    exact (setEnvironment hset).bind fun _ => pure _

theorem function (s : String) (n : Nat) : Alike traced low (function s n) (function s n) := by
  refine environment fun e₁ e₂ h => ?_
  rw [h.agrees.functions]
  split
  · exact fail _
  · split
    · split
      · exact pure _
      · exact fail _
    · exact pure _

theorem afterEffect {c c' : Command.Effect} (h : Command.Together traced c c') :
    Alike traced low (afterEffect c) (afterEffect c') := by
  refine (setEnvironment h.1).bind fun _ => ?_
  rw [h.2]
  cases c.2 with
  | none => exact pure ()
  | some e => exact fail _

theorem command (s : String) (ts : List Token) :
    Alike traced low (command s ts) (command s ts) := by
  refine environment fun e₁ e₂ h => ?_
  rw [h.agrees.commands]
  split
  · exact fail _
  · exact afterEffect (Command.together_setOutput h ts)
  · exact afterEffect (Command.together_setDebug h ts)
  · exact afterEffect (Command.together_declareAll h ts)
  · exact of_steady (.throw _)

end Alike

/-- Where one run alone traces, an evaluation that differs has come to a term that is too high to be
written, or to an integer too long for it. -/
theorem alike_evaluateWithin {traced : Prop} (n : Nat) (t : Term) :
    Alike traced (t.height ≤ Host.writing) (evaluateWithin n t) (evaluateWithin n t) := by
  induction n generalizing t with
  | zero => exact .fail _
  | succ n ih =>
    have hnote : Alike traced (t.height ≤ Host.writing) (note (.evaluation t)) _ :=
      .note fun ht => List.forall_mem_singleton.2 ht
    have below {s : Term} (h : s.height ≤ t.height) : Alike traced (t.height ≤ Host.writing)
        (evaluateWithin n s) (evaluateWithin n s) := (ih s).mono h.trans
    cases t with
    | absent => exact hnote.bind fun _ => .fail _
    | empty => exact hnote.bind fun _ => .pure _
    | number a u =>
      rw [evaluateWithin_number]
      exact hnote.bind fun _ => .after (.checkHeight u) fun _ =>
        (Alike.canonical id).bind fun _ => .pure _
    | signed o t =>
      have hs := below (Nat.le_add_left t.height 1)
      rw [evaluateWithin_signed]
      exact hnote.bind fun _ => hs.bind fun v => .after (.sign o v) fun _ => .pure _
    | binary o l r =>
      have hh : (Term.binary o l r).height = 1 + max l.height r.height := rfl
      have hl := below (by omega : l.height ≤ _)
      have hr := below (by omega : r.height ≤ _)
      by_cases ho : o = .equals
      · subst ho
        rw [evaluateWithin_equals]
        exact hnote.bind fun _ => (Alike.target l).bind fun s => hr.bind fun v =>
          (Alike.store s v).bind fun _ => .pure _
      · rw [evaluateWithin_binary _ ho]
        exact hnote.bind fun _ => hl.bind fun v => hr.bind fun w =>
          (Alike.binary o v w).bind fun _ => .pure _
    | name s =>
      rw [evaluateWithin_name]
      refine hnote.bind fun _ => .environment fun e₁ e₂ h => ?_
      rw [h.agrees.lookup]
      cases hs : e₁.lookup s with
      | error e => exact .fail _
      | ok t => exact (ih t).mono fun _ => h.writable s t hs
    | call s ts =>
      have hargs (t : Term) (h : t ∈ ts) :=
        below ((Term.height_le_heights h).trans (Nat.le_add_left _ 1))
      rw [evaluateWithin_call]
      refine hnote.bind fun _ => (Alike.function s _).bind fun f => ?_
      refine Alike.bind (.mapM ts fun t h => (hargs t h).bind fun v => ?_) fun as => ?_
      · exact .after (.operand s v) fun _ => .pure _
      · exact .after (.apply s f as) fun _ => .pure _
    | command s ts =>
      rw [evaluateWithin_command]
      exact hnote.bind fun _ => (Alike.command s ts).bind fun _ => .pure _
    | bracketed t | fraction f => exact hnote.bind fun _ => .fail _

end UnitCalculator
