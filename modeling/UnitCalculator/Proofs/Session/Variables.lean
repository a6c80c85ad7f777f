import UnitCalculator.Proofs.Lexeme.Sequence
import UnitCalculator.Proofs.Session.Failing
import UnitCalculator.Proofs.Session.Integers
import UnitCalculator.Proofs.Session.Invariants

/-!
Variables as a store. The line that consists of a name gives back what the last assignment to the
name that succeeded came to, whatever other lines came after it; before the first one, the name is
declared or unknown.
-/

set_option autoImplicit false

namespace UnitCalculator

open Run Evaluate Relation UnitCalculator.Units

theorem canonicalize_canonical {q : Quantity} (h : IsCanonical q.unit) :
    canonicalize q.value (unitTerm q.unit) = .ok q := by
  obtain ⟨p, hp⟩ := keepsNumber_unitTerm q.unit q.value
  obtain ⟨hc, hd⟩ := (carries_unitTerm h).isCanonical hp
  have hu : p = q.unit := (hc.denotes.eq_iff h.denotes).2 hd
  rw [hp, hu]

/-! Names of variables -/

/-- The name is an identifier, and none of the builtins. -/
structure IsFree (k : Text.CharClasses) (x : String) : Prop where
  identifier : x.toList ∈ Group.identifier.language k
  constant : Environment.fresh.isConstant x = false
  function : Environment.fresh.isFunction x = false
  command : Environment.fresh.isCommand x = false

theorem IsFree.kind {k : Text.CharClasses} {x : String} (hx : IsFree k x) :
    Environment.fresh.grammarNames.kind x = .var := by
  simp [Names.kind, Environment.grammarNames, hx.constant, hx.function, hx.command]

theorem Environment.isVariable_of_assignable {env : Environment} {s : String}
    (h : env.checkAssignable s = .ok ()) : env.isVariable s = true := by
  unfold checkAssignable at h
  split at h
  · cases h
  · split at h
    · assumption
    · cases h

theorem parse_variable {names : Names} {limit : Int} {s : String} (hs : names.kind s = .var)
    (hl : 1 ≤ limit) : parse names limit [.ident s] = .ok (.name s) := by
  have hlevels : 1 ≤ limit.toNat := by omega
  exact Grammar.parse_of_levels_le
    (.value (.sum (.product (.unsigned (.plain (.name s (.inr hs)))) .noFactor) .noAddition))
    hlevels

/-! What is attained in the course of a computation -/

def Attains (P : Environment → Prop) {α : Type} (env : Environment) (x : Run α) : Prop :=
  ∃ r env', x.Ends env r env' ∧ P env'

namespace Attains

variable {α β : Type} {P : Environment → Prop} {env env' : Environment} {x : Run α}

theorem bind {f : α → Run β} (hx : Attains P env x)
    (hf : ∀ a, Meets P (fun _ => True) (f a) fun _ => True) : Attains P env (x >>= f) := by
  obtain ⟨r, env₁, he, hp⟩ := hx
  cases r with
  | error s => exact ⟨_, env₁, he.bind_error, hp⟩
  | ok a =>
    obtain ⟨r, env₂, he', hp', -⟩ := hf a env₁ hp
    exact ⟨r, env₂, he.bind he', hp'⟩

theorem after {f : α → Run β} {a : α} (hx : x.Ends env (.ok a) env')
    (hf : Attains P env' (f a)) : Attains P env (x >>= f) := by
  obtain ⟨r, env₂, he, hp⟩ := hf
  exact ⟨r, env₂, hx.bind he, hp⟩

theorem weaken {Q : Environment → Prop} (h : Attains P env x) (hq : ∀ e, P e → Q e) :
    Attains Q env x := by
  obtain ⟨r, env', he, hp⟩ := h
  exact ⟨r, env', he, hq env' hp⟩

end Attains

section Host

variable [Host]

/-! Reading a variable -/

theorem ends_canonical {a : Number} {u : Term} {q : Quantity} (h : canonicalize a u = .ok q)
    {env : Environment} (hw : env.debug = true → (Term.number a u).obstacle Host.writing = none) :
    (canonical a u).Ends env (.ok q) env := by
  have hu : (orUnitError (canonicalize a u)).Ends env (.ok q) env := by
    rw [h]
    exact .pure q env
  unfold canonical
  split
  · exact hu
  · have hnote : (note (.canonicalization a u)).Ends env (.ok ()) env := .note fun hd =>
      Remark.obstacle_eq_none_iff.2 (List.forall_mem_singleton.2 (hw hd))
    exact hnote.bind hu

theorem ends_number {a : Number} {u : Term} {q : Quantity} (h : canonicalize a u = .ok q)
    (hu : u.height ≤ Host.evaluation) {env : Environment}
    (hw : env.debug = true → (Term.number a u).obstacle Host.writing = none) (n : Nat) :
    (evaluateWithin (n + 1) (.number a u)).Ends env (.ok (some q)) env := by
  rw [evaluateWithin_number]
  refine (note_evaluation hw).bind ((checkHeight_of_le hu env).bind ?_)
  exact (ends_canonical h hw).bind (.pure _ env)

/-- What is stored is canonical already, so it is read as it is, if the trace can show it. -/
theorem ends_toTerm {q : Quantity} (h : IsCanonical q.unit) {env : Environment}
    (hs : env.debug = true → q.toTerm.Short) (n : Nat) :
    (evaluateWithin (n + 1) q.toTerm).Ends env (.ok (some q)) env := by
  have hc := canonicalize_canonical h
  have hw (hd : env.debug = true) : q.toTerm.obstacle Host.writing = none := by
    have hpos := Host.writing_ge
    exact Term.obstacle_eq_none_iff.2 ⟨by rw [q.height_toTerm]; omega, hs hd⟩
  obtain ⟨a, p⟩ := q
  have hu : (unitTerm p).height ≤ Host.evaluation := by
    have hpos := Host.evaluation_ge
    have hone : (unitTerm p).height = 1 := by cases p <;> rfl
    omega
  cases p with
  | none | some f => exact ends_number hc hu hw n

theorem ends_toTerm_unwritten {q : Quantity} {env : Environment} (hd : env.debug = true)
    (hs : ¬q.toTerm.Short) (n : Nat) :
    (evaluateWithin (n + 1) q.toTerm).Ends env (.error (.failure (.unwritten .tooLong))) env := by
  have hpos := Host.writing_ge
  have hle : q.toTerm.height ≤ Host.writing := by rw [q.height_toTerm]; omega
  obtain ⟨o, ho⟩ := Option.ne_none_iff_exists'.1 fun ho => hs (Term.obstacle_eq_none_iff.1 ho).2
  obtain rfl := Term.obstacle_eq_tooLong hle ho
  unfold evaluateWithin
  exact (note_evaluation_unwritten hd ho).bind_error

theorem ends_name {env : Environment} {s : String} (n : Nat) :
    (∀ e, env.lookup s = .error e →
        (evaluateWithin (n + 1) (.name s)).Ends env (.error (.failure (.eval (.name e)))) env) ∧
      ∀ t r, env.lookup s = .ok t → (evaluateWithin n t).Ends env r env →
        (evaluateWithin (n + 1) (.name s)).Ends env r env := by
  have hnote : (note (.evaluation (.name s))).Ends env (.ok ()) env := note_evaluation fun _ =>
    Term.obstacle_eq_none_iff.2 ⟨(by decide : 1 ≤ 100).trans Host.writing_ge, .name s⟩
  rw [evaluateWithin_name]
  refine ⟨fun e he => hnote.bind (Ends.bind (.environment env) ?_),
    fun t r ht h => hnote.bind (Ends.bind (.environment env) ?_)⟩
  · rw [he]
    exact Ends.bind_error (.fail _ env)
  · rw [ht]
    exact Ends.bind (.pure t env) h

/-! Declarations that are carried out -/

structure Places (x : String) (env : Environment) : Prop where
  sound : env.Sound
  commands : env.commands = Environment.fresh.commands
  declared : env.isVariable x = true

theorem meets_places {x : String} {t : Term} (ht : Expression t) {n : Nat}
    (hn : n ≤ Host.evaluation) :
    Meets (Places x) (fun _ => True) (evaluateWithin n t) fun _ => True := by
  intro env hp
  obtain ⟨r, env', he, hreach, -⟩ := leads_expression hp.sound ht hn
  have hkept := Preserved.of_performs hp.commands hreach
  refine ⟨r, env', he, ⟨?_, hkept.commands.trans hp.commands, hkept.isVariable hp.declared⟩, ?_⟩
  · exact ((secures_expression hp.sound ht hn).ends he).1
  · cases r with
    | ok a => trivial
    | error s => trivial

theorem attains_declaration {env : Environment} {us : List Token} {x : String}
    (hx : x ∈ Command.taken env.isConstant us) (hs : env.Sound)
    (hc : env.commands = Environment.fresh.commands) :
    Attains (Places x) env (command Command.declare.name us) := by
  obtain ⟨r, env', he⟩ := blind_command Command.declare.name us env
  obtain ⟨bindings, hb, hd⟩ := Command.declareAll_changes env us
  have henv : env' = { env with bindings } := (ends_declaration hc he).trans hb
  refine ⟨r, env', he, ((secures_command hs _ us).ends he).1, ?_, ?_⟩
  · rw [henv]
    exact hc
  · have hbx := hd x
    rw [if_pos hx] at hbx
    rw [henv, Environment.isVariable, Table.has, hbx]
    rfl

theorem attains_arguments {env env₁ : Environment} {x f : String} {before after : List Term}
    {t : Term} {as : List Number} {n : Nat} (hn : n ≤ Host.evaluation)
    (hb : (before.mapM (argument n f)).Ends env (.ok as) env₁)
    (ht : Attains (Places x) env₁ (evaluateWithin n t)) (hafter : ∀ u ∈ after, Expression u) :
    Attains (Places x) env ((before ++ t :: after).mapM (argument n f)) := by
  have hoperand (v : Value) : Meets (Places x) (fun _ => True)
      (operand f v >>= fun q => pure q.value.widened) fun _ => True :=
    (Meets.of_returns fun env => returns_operand env f v).bind fun _ _ => .pure trivial
  have hrest : Meets (Places x) (fun _ => True) (after.mapM (argument n f)) fun _ => True := by
    refine (Meets.mapM (Q := fun _ => True) fun u hu => ?_).value fun _ _ => trivial
    exact (meets_places (hafter u hu) hn).bind fun v _ => hoperand v
  rw [List.mapM_append, List.mapM_cons]
  refine .after hb (.bind (.bind (ht.bind hoperand) fun a => ?_) fun _ => .pure trivial)
  exact hrest.bind fun _ _ => .pure trivial

theorem attains_places {e env : Environment} {us : List Token} {n : Nat} {t : Term}
    {x : String} (h : CarriesOut e Command.declare.name us n env t)
    (hx : x ∈ Command.taken e.isConstant us) (hs : env.Sound)
    (hc : env.commands = Environment.fresh.commands) (ht : Expression t) (hn : n ≤ Host.evaluation) :
    Attains (Places x) env (evaluateWithin n t) := by
  induction h with
  | here hnote =>
    rw [evaluateWithin_command]
    exact .after hnote ((attains_declaration hx hs hc).bind fun _ => .pure trivial)
  | @operand n env o t hnote _ ih =>
    rw [evaluateWithin_signed]
    cases ht with
    | signed ht =>
    refine .after hnote ((ih hs hc ht (by omega)).bind fun v => ?_)
    exact (Meets.of_returns fun env => returns_sign env o v).bind fun _ _ => .pure trivial
  | @left n env o l r ho hnote _ ih =>
    rw [evaluateWithin_binary _ ho]
    obtain ⟨hl, hr⟩ := ht.binary_part .here
    refine .after hnote ((ih hs hc hl (by omega)).bind fun v => ?_)
    refine (meets_places hr (by omega)).bind fun w _ => ?_
    exact (Meets.of_returns fun env => returns_binary env o v w).bind fun _ _ => .pure trivial
  | @right n env env₁ o l r v ho hnote hv _ ih =>
    rw [evaluateWithin_binary _ ho]
    obtain ⟨hl, hr⟩ := ht.binary_part .here
    have hn' : n ≤ Host.evaluation := by omega
    have hs₁ := ((secures_expression hs hl hn').ends hv).1
    have hkept := Preserved.of_performs hc ((leads_expression hs hl hn').ends hv).1
    refine .after hnote (.after hv ?_)
    refine (ih hs₁ (hkept.commands.trans hc) hr hn').bind fun w => ?_
    exact (Meets.of_returns fun env => returns_binary env o v w).bind fun _ _ => .pure trivial
  | assigned _ _ _ _ =>
    cases ht with
    | binary ho _ _ => exact absurd rfl ho
  | @argument n env env₁ f before after t g as hnote hf hb _ ih =>
    rw [evaluateWithin_call]
    cases ht with
    | call hts =>
    have hn' : n ≤ Host.evaluation := by omega
    obtain rfl := eq_of_arguments hs hn' (fun u hu => hts u (by simp [hu])) hb
    have hafter (u : Term) (hu : u ∈ after) : Expression u := hts u (by simp [hu])
    have hargs := attains_arguments hn' hb (ih hs hc (hts t (by simp)) hn') hafter
    refine .after hnote (.after hf (hargs.bind fun as' => ?_))
    exact (Meets.of_returns fun env => returns_apply env f g as').bind fun _ _ => .pure trivial

/-! Lines that write to a variable, and lines that declare it -/

/-- The line is an assignment to the variable that succeeds, and comes to `q`. -/
def Writes (k : Text.CharClasses) (x : String) (q : Quantity) (env : Environment)
    (line : List Char) : Prop :=
  (runLine k env line).1 = .ok (some q) ∧ ∃ ts e, tokenize k line = .ok ts ∧
    parse env.grammarNames env.maxDepth ts = .ok (.binary .equals (.name x) e)

/-- The line carries out a declaration that takes the name. -/
def Declares (k : Text.CharClasses) (x : String) (env : Environment) (line : List Char) : Prop :=
  ∃ ts t e us, tokenize k line = .ok ts ∧ parse env.grammarNames env.maxDepth ts = .ok t ∧
    CarriesOut e Command.declare.name us Host.evaluation env t ∧ x ∈ Command.taken e.isConstant us

/-- What a line can do to the place of a variable, before which the place is `p`. -/
inductive Turns (k : Text.CharClasses) (x : String) (env : Environment) (line : List Char) :
    Option (Option Term) → Prop where
  | writes {q : Quantity} : Writes k x q env line → IsCanonical q.unit →
      env.isVariable x = true → Turns k x env line (some (some q.toTerm))
  | declares : (∀ q, ¬Writes k x q env line) → Declares k x env line →
      env.bindings.get? x = none → Turns k x env line (some none)
  | keeps : (∀ q, ¬Writes k x q env line) → (Declares k x env line → env.isVariable x = true) →
      Turns k x env line (env.bindings.get? x)

theorem attains_variable {e env : Environment} {us : List Token} {n : Nat} {t : Term}
    {x : String} (h : CarriesOut e Command.declare.name us n env t)
    (hx : x ∈ Command.taken e.isConstant us) (hs : env.Sound)
    (hc : env.commands = Environment.fresh.commands) (ht : IsLine t) (hn : n ≤ Host.evaluation) :
    Attains (fun env => env.isVariable x = true) env (evaluateWithin n t) := by
  cases ht with
  | value ht => exact (attains_places h hx hs hc ht hn).weaken fun _ hp => hp.declared
  | assignment hl hr =>
    cases h with
    | left ho _ _ => exact absurd rfl ho
    | right ho _ _ _ => exact absurd rfl ho
    | @assigned n env l r s hnote htarget hcarries =>
      rw [evaluateWithin_equals]
      have hright := attains_places hcarries hx hs hc hr (by omega)
      have hdeclared := hright.weaken fun _ hp => hp.declared
      refine .after hnote (.after htarget (hdeclared.bind fun v => ?_))
      exact ((lasting_isVariable x).store s v).bind fun _ => .pure _

variable {k : Text.CharClasses} {env : Environment} {x : String} {q : Quantity} {line : List Char}

theorem Declares.isVariable_after (h : Reachable k env) (hd : Declares k x env line) :
    (env.after k line).isVariable x = true := by
  obtain ⟨ts, t, e, us, hts, hp, hc, hx⟩ := hd
  have ht := (readableLine_of_parse hts hp).isLine
  obtain ⟨r, env', he, hv⟩ :=
    attains_variable hc hx h.sound h.kept.commands ht (Nat.le_refl Host.evaluation)
  rw [((ends_runLine hts hp).unique he).2]
  exact hv

theorem after_of_unread (h : ∀ ts t, tokenize k line = .ok ts →
    parse env.grammarNames env.maxDepth ts ≠ .ok t) : env.after k line = env := by
  have hc := comes_runLine k env line
  generalize (runLine k env line).1 = r, env.after k line = env' at hc ⊢
  cases hc with
  | evaluated hts hp _ => exact absurd hp (h _ _ hts)
  | _ => rfl

theorem keeps_place (h : Reachable k env) (hw : ∀ q, ¬Writes k x q env line)
    {env' : Environment} (he : env.after k line = env')
    (hb : env'.bindings.get? x = env.bindings.get? x) :
    Turns k x env line (env'.bindings.get? x) := by
  rw [hb]
  refine .keeps hw fun hd => ?_
  have hv := hd.isVariable_after h
  unfold Environment.isVariable Table.has at hv ⊢
  rwa [he, hb] at hv

theorem Writes.term (hw : Writes k x q env line) {ts : List Token} {t : Term}
    (hts : tokenize k line = .ok ts)
    (hp : parse env.grammarNames env.maxDepth ts = .ok t) :
    ∃ e, t = .binary .equals (.name x) e := by
  obtain ⟨-, ts', e, hts', hp'⟩ := hw
  rw [hts] at hts'
  cases hts'
  rw [hp] at hp'
  cases hp'
  exact ⟨e, rfl⟩

theorem turns_line (h : Reachable k env) (x : String) (line : List Char) :
    Turns k x env line ((env.after k line).bindings.get? x) := by
  by_cases hread : ∃ ts t, tokenize k line = .ok ts ∧
      parse env.grammarNames env.maxDepth ts = .ok t
  · obtain ⟨ts, t, hts, hp⟩ := hread
    have ht := (readableLine_of_parse hts hp).isLine
    have ha := alters_line h.sound ht (Nat.le_refl Host.evaluation) (ends_runLine hts hp)
    generalize hr : (runLine k env line).1 = r, he : env.after k line = env' at ha
    cases ha with
    | commands hno hreach =>
      have hw (q : Quantity) : ¬Writes k x q env line := by
        intro hw
        obtain ⟨e, rfl⟩ := hw.term hts hp
        obtain ⟨s, hs⟩ := hno _ e rfl
        rw [← hr, hw.1] at hs
        cases hs
      obtain hb | ⟨hn, hb, e, us, hc, hx⟩ :=
        (Preserved.of_performs h.kept.commands hreach).bindings x
      · exact keeps_place h hw he hb
      · rw [hb]
        exact .declares hw ⟨ts, t, e, us, hts, hp, hc, hx⟩ hn
    | @assignment s e q hassignable =>
      by_cases hs : s = x
      · subst hs
        have ho := h.outcome line
        rw [hr] at ho
        rw [Table.get?_set, if_pos rfl]
        exact .writes ⟨hr, ts, e, hts, hp⟩ (ho q rfl).unit.canonical
          (Environment.isVariable_of_assignable hassignable)
      · have hw (q : Quantity) : ¬Writes k x q env line := by
          intro hw
          obtain ⟨e', he'⟩ := hw.term hts hp
          cases he'
          exact hs rfl
        exact keeps_place h hw he (by rw [Table.get?_set, if_neg (Ne.symm hs)])
  · have hnone (ts : List Token) (t : Term) (hts : tokenize k line = .ok ts) :
        parse env.grammarNames env.maxDepth ts ≠ .ok t := fun hp => hread ⟨ts, t, hts, hp⟩
    refine keeps_place h (fun q hw => ?_) rfl (by rw [after_of_unread hnone])
    obtain ⟨-, ts, e, hts, hp⟩ := hw
    exact hnone ts _ hts hp

theorem Writes.after (hw : Writes k x q env line) (h : Reachable k env) :
    IsCanonical q.unit ∧ (env.after k line).bindings.get? x = some (some q.toTerm) := by
  have ht := turns_line h x line
  generalize (env.after k line).bindings.get? x = p at ht ⊢
  cases ht with
  | writes hw' hc _ =>
    have hq := hw.1.symm.trans hw'.1
    cases hq
    exact ⟨hc, rfl⟩
  | declares hn _ _ => exact absurd hw (hn q)
  | keeps hn _ => exact absurd hw (hn q)

theorem place_of_not_writes (h : Reachable k env) (hw : ∀ q, ¬Writes k x q env line) :
    (env.after k line).bindings.get? x = env.bindings.get? x ∨
      env.bindings.get? x = none ∧ (env.after k line).bindings.get? x = some none := by
  have ht := turns_line h x line
  generalize (env.after k line).bindings.get? x = p at ht ⊢
  cases ht with
  | writes hw' _ _ => exact absurd hw' (hw _)
  | declares _ _ hn => exact .inr ⟨hn, rfl⟩
  | keeps _ _ => exact .inl rfl

/-- The environment behind a list of lines. -/
def Environment.afterAll (k : Text.CharClasses) (env : Environment) (lines : List (List Char)) :
    Environment :=
  lines.foldl (fun e line => e.after k line) env

/-- Some line has the property, in the environment that it finds. -/
def Sometime (k : Text.CharClasses) (P : Environment → List Char → Prop) :
    Environment → List (List Char) → Prop
  | _, [] => False
  | env, line :: lines => P env line ∨ Sometime k P (env.after k line) lines

/-- Of the lines that write to the variable, the last one writes `q`. -/
inductive LastWritten (k : Text.CharClasses) (x : String) (q : Quantity) :
    Environment → List (List Char) → Prop where
  | now {env : Environment} {line : List Char} {lines : List (List Char)} : Writes k x q env line →
      ¬Sometime k (fun e l => ∃ p, Writes k x p e l) (env.after k line) lines →
        LastWritten k x q env (line :: lines)
  | later {env : Environment} {line : List Char} {lines : List (List Char)} :
      LastWritten k x q (env.after k line) lines → LastWritten k x q env (line :: lines)

theorem Reachable.afterAll (h : Reachable k env) (lines : List (List Char)) :
    Reachable k (env.afterAll k lines) := by
  induction lines generalizing env with
  | nil => exact h
  | cons line lines ih => exact ih (h.line line)

theorem Environment.Kept.afterAll {limit : Int} (h : env.Kept limit) (lines : List (List Char)) :
    (env.afterAll k lines).Kept limit := by
  induction lines generalizing env with
  | nil => exact h
  | cons line lines ih => exact ih ((meets_calculate k limit line).runLine h).1

theorem place_of_not_written (h : Reachable k env) {lines : List (List Char)}
    (hw : ¬Sometime k (fun e l => ∃ q, Writes k x q e l) env lines) :
    (env.afterAll k lines).bindings.get? x = env.bindings.get? x ∨
      env.bindings.get? x = none ∧ (env.afterAll k lines).bindings.get? x = some none := by
  induction lines generalizing env with
  | nil => exact .inl rfl
  | cons line lines ih =>
    obtain ⟨hline, hlines⟩ := not_or.1 hw
    have hfirst := place_of_not_writes h (not_exists.1 hline)
    obtain hrest | ⟨hnone, hrest⟩ := ih (h.line line) hlines
    · rwa [← hrest] at hfirst
    · obtain hfirst | ⟨-, hfirst⟩ := hfirst
      · exact .inr ⟨hfirst ▸ hnone, hrest⟩
      · rw [hfirst] at hnone
        cases hnone

theorem LastWritten.place {lines : List (List Char)} (hw : LastWritten k x q env lines)
    (h : Reachable k env) : IsCanonical q.unit ∧
      (env.afterAll k lines).bindings.get? x = some (some q.toTerm) := by
  induction hw with
  | @now env line lines hw hnot =>
    obtain ⟨hc, hb⟩ := hw.after h
    refine ⟨hc, ?_⟩
    obtain hrest | ⟨hnone, -⟩ := place_of_not_written (h.line line) hnot
    · exact hrest.trans hb
    · rw [hb] at hnone
      cases hnone
  | @later env line lines _ ih => exact ih (h.line line)

theorem LastWritten.behind {before lines : List (List Char)}
    (h : LastWritten k x q (env.afterAll k before) lines) : LastWritten k x q env (before ++ lines) := by
  induction before generalizing env with
  | nil => exact h
  | cons line before ih => exact .later (ih h)

theorem ends_calculate_variable (h : Reachable k env) (hx : IsFree k x) (hl : 1 ≤ env.maxDepth)
    {r : Except Stop Value} (he : (evaluate (.name x)).Ends env r env) :
    (runLine k env x.toList).1 = r := by
  have hlexes : Lexes k x.toList [.ident x] [] := .identifier hx.identifier nofun
  have hp : parse env.grammarNames env.maxDepth [.ident x] = .ok (.name x) := by
    rw [h.kept.grammarNames]
    exact parse_variable hx.kind hl
  exact (runLine_of_ends (ends_calculate hlexes.tokenize_eq (List.cons_ne_nil _ _) hp he)).1

end Host

/-! One declared before and after it is assigned -/

theorem isFree_x : IsFree .standard "x" where
  identifier := Group.mem_identifier.2 ⟨'x', [], rfl, rfl, by simp⟩
  constant := rfl
  function := rfl
  command := rfl

def withX (v : Option Term) : Environment := { Environment.fresh with bindings := [("x", v)] }

theorem tokenize_declaration : tokenize .standard "var(x)".toList =
    .ok [.ident "var", .op .openParen, .ident "x", .op .closeParen] := by
  refine tokenize_cons rfl rfl (tokenize_cons rfl rfl (tokenize_cons rfl rfl ?_))
  exact tokenize_cons rfl rfl (tokenize_nil _)

theorem tokenize_assignment :
    tokenize .standard "x=1".toList = .ok [.ident "x", .op .equals, .int 1] :=
  tokenize_cons rfl rfl (tokenize_cons rfl rfl (tokenize_cons rfl rfl (tokenize_nil _)))

theorem runLine_declaration [Host] (env : Environment) (v : Option Term)
    (h : (evaluate (.command "var" [.ident "x"])).Ends env (.ok none) (withX v))
    (hp : parse env.grammarNames env.maxDepth
      [.ident "var", .op .openParen, .ident "x", .op .closeParen] =
        .ok (.command "var" [.ident "x"])) :
    (runLine .standard env "var(x)".toList).1 = .ok none ∧
      env.after .standard "var(x)".toList = withX v :=
  runLine_of_ends (ends_calculate tokenize_declaration (List.cons_ne_nil _ _) hp h)

theorem runLine_assignment :
    (runLine .standard (withX none) "x=1".toList).1 =
        .ok (some ⟨.real (Float.ofInt 1), none⟩) ∧
      (withX none).after .standard "x=1".toList =
        withX (some (Environment.real (Float.ofInt 1))) :=
  runLine_of_ends (ends_calculate (t := .binary .equals (.name "x") (.int 1)) tokenize_assignment
    (List.cons_ne_nil _ _) rfl fun tr => ⟨tr, rfl⟩)

end UnitCalculator
