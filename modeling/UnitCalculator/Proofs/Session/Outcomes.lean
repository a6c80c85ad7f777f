import UnitCalculator.Proofs.Session.Reachable
import UnitCalculator.Proofs.Session.Values

/-!
What lines come to. In every environment that lines lead to, the variables hold canonical quantities,
and so are the values of further lines. A line without a value has failed at one of its stages, with
two exceptions: the scale factor of a unit that is written out may vanish where it is divided by, and
an integer may be too long for the text that has to show it.
-/

set_option autoImplicit false

namespace UnitCalculator

open Run Evaluate UnitCalculator.Units

def LineStops (k : Text.CharClasses) (limit : Int) (text : List Char) : Stop → Prop
  | .exit => True
  | .failure (.lex e) => tokenize k text = .error e
  | .failure (.parse e) => ∃ ts, tokenize k text = .ok ts ∧
      parse Environment.fresh.grammarNames limit ts = .error e
  | .failure (.eval e) => ∃ ts t, tokenize k text = .ok ts ∧
      parse Environment.fresh.grammarNames limit ts = .ok t ∧
        e.Possible ∧ (e = .unit .scaleVanished → Vanishes t)
  | .failure (.unwritten o) => o = .tooLong

theorem LineStops.of_stops {k : Text.CharClasses} {limit : Int} {text : List Char}
    {ts : List Token} {t : Term} (hts : tokenize k text = .ok ts)
    (hp : parse Environment.fresh.grammarNames limit ts = .ok t) (s : Stop) (hs : Stops t s) :
    LineStops k limit text s := by
  match s with
  | .exit => trivial
  | .failure (.eval e) => exact ⟨ts, t, hts, hp, hs⟩
  | .failure (.unwritten o) => exact hs

section Host

variable [Host]

theorem meets_calculate (k : Text.CharClasses) (limit : Int) (text : List Char) :
    Meets (Environment.Kept limit) (LineStops k limit text) (calculate k text) IsNormalValue := by
  refine (Meets.notes _).bind fun _ _ => ?_
  split
  · next e he => exact .throw he
  · exact .pure nofun
  · next ts _ hts =>
    refine Meets.environment.bind fun e he => ?_
    rw [he.grammarNames, he.maxDepth]
    refine (Meets.notes _).bind fun _ _ => ?_
    split
    · next e' hp => exact .throw ⟨ts, hts, by rw [parse, hp, Except.map]⟩
    · next t _ hp =>
      have hp : parse Environment.fresh.grammarNames limit ts = .ok t := by
        rw [parse, hp, Except.map]
      exact (meets_line (readableLine_of_parse hts hp) _).stop (LineStops.of_stops hts hp)

theorem Meets.runLine {k : Text.CharClasses} {I : Environment → Prop} {E : Stop → Prop}
    {Q : Value → Prop} {text : List Char} (h : Meets I E (calculate k text) Q)
    {env : Environment} (hi : I env) :
    I (env.after k text) ∧ Outcome Q E (runLine k env text).1 := by
  obtain ⟨r, env', he, hi', ho⟩ := h env hi
  obtain ⟨tr, hr⟩ := he []
  have hline : UnitCalculator.runLine k env text = (r, ⟨env', tr⟩) := hr
  rw [Environment.after, hline]
  exact ⟨hi', ho⟩

theorem Reachable.kept {k : Text.CharClasses} {env : Environment} (h : Reachable k env) :
    env.Kept env.maxDepth := by
  induction h with
  | start debug maxDepth => exact Environment.kept_fresh debug maxDepth
  | @line env text _ ih =>
    obtain ⟨hk, -⟩ := (meets_calculate k env.maxDepth text).runLine ih
    rw [hk.maxDepth]
    exact hk

theorem Reachable.outcome {k : Text.CharClasses} {env : Environment} (h : Reachable k env)
    (text : List Char) :
    Outcome IsNormalValue (LineStops k env.maxDepth text) (runLine k env text).1 :=
  ((meets_calculate k env.maxDepth text).runLine h.kept).2

/-- In every environment that lines lead to, variables hold canonical quantities, and a line comes to
nothing else. -/
theorem values_canonical {k : Text.CharClasses} {env : Environment} (h : Reachable k env) :
    (∀ s t, (s, some t) ∈ env.bindings → ∃ q : Quantity, t = q.toTerm ∧ q.Canonical) ∧
      ∀ text q, (runLine k env text).1 = .ok (some q) → q.Canonical := by
  constructor
  · intro s t hst
    obtain ⟨q, rfl, hq⟩ := h.kept.bindings s t hst
    exact ⟨q, rfl, hq.canonical⟩
  · intro text q hq
    have ho := h.outcome text
    rw [hq] at ho
    exact (ho q rfl).canonical

theorem ends_calculate {k : Text.CharClasses} {env env' : Environment} {text : List Char}
    {ts : List Token} {t : Term} {r : Except Stop Value} (hts : tokenize k text = .ok ts)
    (hne : ts ≠ []) (hp : parse env.grammarNames env.maxDepth ts = .ok t)
    (he : (evaluate t).Ends env r env') : (calculate k text).Ends env r env' := by
  refine Ends.bind (.notes _ env) ?_
  rw [hts]
  cases ts with
  | nil => exact absurd rfl hne
  | cons u us =>
    refine Ends.bind (.environment env) (Ends.bind (.notes _ env) ?_)
    rw [parse] at hp
    cases ho : (parseWithVisits env.grammarNames env.maxDepth (u :: us)).outcome with
    | error e =>
      rw [ho] at hp
      cases hp
    | ok p =>
      rw [ho] at hp
      cases hp
      exact he

end Host

theorem runLine_metre_canonical : Reachable .standard .fresh ∧
    ∃ p, (runLine .standard .fresh ['1', '[', 'm', ']']).1 = .ok (some p) ∧ p.Canonical := by
  have hs : Reachable .standard .fresh := .start false Environment.defaultDepth
  have hts : tokenize .standard ['1', '[', 'm', ']'] =
      .ok [.int 1, .op .openBracket, .ident "m", .op .closeBracket] :=
    tokenize_cons rfl rfl (tokenize_cons rfl rfl (tokenize_cons rfl rfl (tokenize_cons rfl rfl
      (tokenize_nil _))))
  have hr := (ends_calculate hts (List.cons_ne_nil _ _) rfl ends_metre).result []
  exact ⟨hs, _, hr, (values_canonical hs).2 _ _ hr⟩

theorem EvalError.Possible.eq_scaleVanished {e : EvalError} (h : e.Possible)
    (hs : e.isScaleFault = true) : e = .unit .scaleVanished := by
  cases e with
  | unit e =>
    cases e with
    | scaleVanished => rfl
    | scalePower => cases h
    | _ => cases hs
  | _ => cases hs

/-- A failure that belongs to no stage of a line is that of an integer too long to be written, or a
vanished scale factor, and then it comes from a unit that is written behind a literal of the line.
Where units of values are combined, no factor is divided by. -/
theorem host_failure_cases [Host] {k : Text.CharClasses} {env : Environment} (h : Reachable k env) :
    (∀ text f, (runLine k env text).1 = .error (.failure f) → f.kind = .host →
        f = .unwritten .tooLong ∨ f = .eval (.unit .scaleVanished) ∧
          ∃ ts t, tokenize k text = .ok ts ∧
            parse env.grammarNames env.maxDepth ts = .ok t ∧ Vanishes t) ∧
      ∀ p q : Option Fraction, KeepsNumber (Units.multiply (unitTerm p) (unitTerm q)) ∧
        KeepsNumber (Units.divide (unitTerm p) (unitTerm q)) ∧
          ∀ n, KeepsNumber (Units.power (unitTerm p) n) := by
  refine ⟨fun text f hf hk => ?_, fun p q =>
    ⟨keepsNumber_multiply p q, keepsNumber_divide p q, keepsNumber_power p⟩⟩
  have ho := h.outcome text
  rw [hf] at ho
  rw [h.kept.grammarNames]
  cases f with
  | lex e => cases hk
  | parse e => cases hk
  | eval e =>
    obtain ⟨ts, t, hts, hp, he, hv⟩ := ho
    have hs : e.isScaleFault = true := by
      by_contra hs
      simp [Failure.kind, hs] at hk
    obtain rfl := he.eq_scaleVanished hs
    exact .inr ⟨rfl, ts, t, hts, hp, hv rfl⟩
  | unwritten o =>
    obtain rfl := ho
    exact .inl rfl

/-- A metre over the 128th power of a millimetre, whose factor is no float but zero. -/
def vanishing : List Char := "1[m/(mm^64*mm^64)]".toList

theorem tokenize_vanishing : tokenize .standard vanishing =
    .ok [.int 1, .op .openBracket, .ident "m", .op .slash, .op .openParen, .ident "mm", .op .caret,
      .int 64, .op .times, .ident "mm", .op .caret, .int 64, .op .closeParen, .op .closeBracket] := by
  refine tokenize_cons rfl rfl (tokenize_cons rfl rfl (tokenize_cons rfl rfl ?_))
  refine tokenize_cons rfl rfl (tokenize_cons rfl rfl (tokenize_cons rfl rfl ?_))
  refine tokenize_cons rfl rfl (tokenize_cons rfl rfl (tokenize_cons rfl rfl ?_))
  refine tokenize_cons rfl rfl (tokenize_cons rfl rfl (tokenize_cons rfl rfl ?_))
  exact tokenize_cons rfl rfl (tokenize_cons rfl rfl (tokenize_nil _))

def vanishingUnit : Term :=
  .binary .slash (.name "m")
    (.binary .times (.binary .caret (.name "mm") (.int 64)) (.binary .caret (.name "mm") (.int 64)))

theorem written_vanishingUnit : Written vanishingUnit := by
  have hm : Written (.binary .caret (.name "mm") (.int 64)) :=
    .power (by decide) (.symbol (by decide))
  exact .slash (.symbol (by decide)) (.times hm hm)

theorem ofWritten_vanishingUnit : ofWritten vanishingUnit = .error .scaleVanished := by
  have hb : (match ofWritten vanishingUnit with
      | .error .scaleVanished => true
      | _ => false) = true := by decide +kernel
  generalize ofWritten vanishingUnit = x at hb ⊢
  split at hb
  · rfl
  · cases hb

theorem ends_vanishing : (calculate .standard vanishing).Ends .fresh
    (.error (.failure (.eval (.unit .scaleVanished)))) .fresh := by
  have hc : (canonical (.int 1) (.bracketed vanishingUnit)).Ends .fresh
      (.error (.failure (.eval (.unit .scaleVanished)))) .fresh := by
    refine Ends.bind (.note nofun) ?_
    rw [canonicalize_bracketed written_vanishingUnit, ofWritten_vanishingUnit]
    exact .fail _ _
  have hh : (checkHeight (.bracketed vanishingUnit)).Ends .fresh (.ok ()) .fresh :=
    fun tr => ⟨tr, rfl⟩
  have he : (evaluate (.number (.int 1) (.bracketed vanishingUnit))).Ends .fresh
      (.error (.failure (.eval (.unit .scaleVanished)))) .fresh :=
    Ends.bind (.note nofun) (hh.bind hc.bind_error)
  exact ends_calculate tokenize_vanishing (List.cons_ne_nil _ _) rfl he

theorem runLine_vanishing : Reachable .standard .fresh ∧
    ∃ f, (runLine .standard .fresh vanishing).1 = .error (.failure f) ∧ f.kind = .host :=
  ⟨.start false Environment.defaultDepth, _, ends_vanishing.result [], rfl⟩

/-- The factor that vanishes is that of the unit in the line. -/
theorem vanishing_written : Reachable .standard .fresh ∧
    ∃ ts t, tokenize .standard vanishing = .ok ts ∧
      parse Environment.fresh.grammarNames Environment.fresh.maxDepth ts = .ok t ∧ Vanishes t := by
  have hs : Reachable .standard .fresh := .start false Environment.defaultDepth
  have hf := ends_vanishing.result []
  obtain hlong | hv := (host_failure_cases hs).1 vanishing _ hf rfl
  · cases hlong
  · exact ⟨hs, hv.2⟩

end UnitCalculator
