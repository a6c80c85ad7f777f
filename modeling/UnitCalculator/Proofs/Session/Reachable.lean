import UnitCalculator.Proofs.Session.Mismatch

/-!
Sessions of lines of text. Every environment that lines lead to is sound, so the result of a line
has the dimension of what was typed; an operation whose operands do not fit is an error, at every
place of the line.
-/

set_option autoImplicit false

namespace UnitCalculator

open Run Evaluate UnitCalculator.Units

section Host

variable [Host]

/-! Lines -/

theorem secures_line {env : Environment} (hs : env.Sound) {t : Term} (ht : IsLine t) {n : Nat}
    (hn : n ≤ Host.evaluation) :
    Secures env (evaluateWithin n t) fun v _ =>
      ∀ q, v = some q → HasDimension env t (dimensionOf q.unit) := by
  cases ht with
  | value ht =>
    refine (secures_expression hs ht hn).weaken fun v env' hv q hq => ?_
    subst hq
    obtain ⟨_, _, hd⟩ := hv
    exact hd
  | @assignment l r hl hr =>
    cases n with
    | zero => exact .fail _ hs
    | succ n =>
      rw [evaluateWithin_equals]
      refine .after hs (.note _) fun _ _ => ?_
      refine .after hs (returns_target env l) fun s h => ?_
      obtain ⟨rfl, _⟩ := h
      refine (secures_expression hs hr (by omega)).bind fun v env₁ hs₁ _ hv => ?_
      have hc (q : Quantity) (hq : v = some q) : IsCanonical q.unit := by
        subst hq
        exact hv.2.1
      refine (secures_store hs₁ s hc).bind fun x env₂ hs₂ _ hx => .pure hs₂ fun y hy => ?_
      obtain ⟨q, rfl, hu⟩ := hx
      obtain ⟨_, _, hd⟩ := hv
      cases hy
      rw [hu]
      exact .assignment hd

theorem secures_calculate {env : Environment} (hs : env.Sound) (k : Text.CharClasses)
    (line : List Char) : Secures env (calculate k line) fun _ _ => True := by
  refine .after hs (.notes _) fun _ _ => ?_
  split
  · exact .throw _ hs
  · exact .pure hs trivial
  · next ts _ hts =>
    refine .after hs .environment fun e he => ?_
    refine .after hs (.notes _) fun _ _ => ?_
    split
    · exact .throw _ hs
    · next t _ hp =>
      have hp : parse e.grammarNames e.maxDepth ts = .ok t := by rw [parse, hp, Except.map]
      have ht : IsParsed k t := ⟨_, _, line, ts, hts, hp⟩
      exact (secures_line hs ht.isLine (Nat.le_refl Host.evaluation)).weaken fun _ _ _ => trivial

/-- Environments that lines of text lead to, whatever the options of the session. -/
inductive Reachable (k : Text.CharClasses) : Environment → Prop where
  | start (debug : Bool) (maxDepth : Int) :
      Reachable k { Environment.fresh with debug, maxDepth }
  | line {env : Environment} (text : List Char) :
      Reachable k env → Reachable k (env.after k text)

theorem Environment.Sound.after {k : Text.CharClasses} {env : Environment} (hs : env.Sound)
    (text : List Char) : (env.after k text).Sound := by
  obtain ⟨r, env', he, hs', _⟩ := secures_calculate hs k text
  obtain ⟨tr, h⟩ := he []
  have h' : env.after k text = env' := congrArg (fun p => p.2.env) h
  rw [h']
  exact hs'

theorem Reachable.sound {k : Text.CharClasses} {env : Environment} (h : Reachable k env) :
    env.Sound := by
  induction h with
  | start debug maxDepth => exact Environment.sound_fresh debug maxDepth
  | line text _ ih => exact ih.after text

/-- In every environment that lines lead to, the value of a term of text has the one dimension of the
term. Where the operands of an operation come to values that do not fit, the operation is an error,
unless one of the values is too long to be written, and the term around it has no value. -/
theorem dimensional_soundness {k : Text.CharClasses} {env : Environment} (h : Reachable k env)
    {t : Term} (ht : IsParsed k t) (tr : List String) :
    (∀ q, ((evaluate t).run.run ⟨env, tr⟩).1 = .ok (some q) →
        ∀ d, HasDimension env t d ↔ d = dimensionOf q.unit) ∧
      ∀ o l r v w m m', Term.Part (.binary o l r) t →
        (evaluate l).run.run ⟨env, tr⟩ = (.ok v, m) → (evaluate r).run.run m = (.ok w, m') →
        Mismatched o v w →
        (∀ n ≤ Host.evaluation, ∃ e,
            ((evaluateWithin n (.binary o l r)).run.run ⟨env, tr⟩).1 = .error (.failure e) ∧
              IsRefusal v w e) ∧
          ∀ q, ((evaluate t).run.run ⟨env, tr⟩).1 ≠ .ok (some q) := by
  have hs := h.sound
  obtain ⟨a, env', he, _, ha⟩ := secures_line hs ht.isLine (Nat.le_refl Host.evaluation)
  have hvalue (q : Quantity) (hq : ((evaluate t).run.run ⟨env, tr⟩).1 = .ok (some q)) :
      HasDimension env t (dimensionOf q.unit) := by
    obtain rfl : a = .ok (some q) := (he.result tr).symm.trans hq
    exact ha _ rfl q rfl
  refine ⟨fun q hq d => ⟨fun hd => hd.unique (hvalue q hq), ?_⟩, ?_⟩
  · rintro rfl
    exact hvalue q hq
  · intro o l r v w m m' hpart hv hw hm
    have hv' : (evaluate l).Ends env (.ok v) m.env := (blind_evaluateWithin _ l).ends hv
    have hw' : (evaluate r).Ends m.env (.ok w) m'.env := (blind_evaluateWithin _ r).ends hw
    have hshort := ht.short.part hpart
    refine ⟨fun n hn => (fails_mismatched hv' hw' hm hshort hn).result tr, fun q hq => ?_⟩
    obtain ⟨hl, hr⟩ := ht.isLine.binary_part hpart
    obtain ⟨e, hd⟩ := (hvalue q hq).binary_part hpart
    exact hd.not_mismatched hs hl hr hv' hw' hm

end Host

def metreAndOne : Term := .binary .plus (.number (.int 1) (.bracketed (.name "m"))) (.int 1)

theorem isParsed_metreAndOne : IsParsed .standard metreAndOne := by
  refine ⟨⟨fun _ => false, fun _ => false, fun _ => false⟩, 10, ['1', '[', 'm', ']', '+', '1'],
    [.int 1, .op .openBracket, .ident "m", .op .closeBracket, .op .plus, .int 1], ?_, rfl⟩
  refine tokenize_cons rfl rfl (tokenize_cons rfl rfl (tokenize_cons rfl rfl ?_))
  exact tokenize_cons rfl rfl (tokenize_cons rfl rfl (tokenize_cons rfl rfl (tokenize_nil _)))

theorem ends_metre : (evaluate (.number (.int 1) (.bracketed (.name "m")))).Ends .fresh
    (.ok (some ⟨.int 1, some ⟨[("m", 1)], []⟩⟩)) .fresh := by
  have hc : (canonical (.int 1) (.bracketed (.name "m"))).Ends .fresh
      (.ok ⟨.int 1, some ⟨[("m", 1)], []⟩⟩) .fresh := by
    refine Ends.bind (.note nofun) ?_
    rw [canonicalize_symbol (by decide) rfl]
    exact .pure _ _
  have hh : (checkHeight (.bracketed (.name "m"))).Ends .fresh (.ok ()) .fresh :=
    fun tr => ⟨tr, rfl⟩
  exact Ends.bind (.note nofun) (hh.bind (hc.bind (.pure _ _)))

theorem metreAndOne_fails :
    Reachable .standard .fresh ∧ IsParsed .standard metreAndOne ∧
      ∃ e, ((evaluate metreAndOne).run.run (.start .fresh)).1 = .error (.failure e) ∧
        e.kind = .eval := by
  have hs : Reachable .standard .fresh := .start false Environment.defaultDepth
  obtain ⟨tr, hv⟩ := ends_metre []
  have hm : Mismatched .plus (some ⟨.int 1, some ⟨[("m", 1)], []⟩⟩) (some ⟨.int 1, none⟩) :=
    ⟨rfl, _, _, rfl, rfl, fun h => absurd (congrFun h "m") (by decide)⟩
  have h := (dimensional_soundness hs isParsed_metreAndOne []).2 _ _ _ _ _ _ _ .here hv rfl hm
  obtain ⟨e, he, hkind | ⟨-, q, hq, hlong⟩⟩ := h.1 Host.evaluation (Nat.le_refl _)
  · exact ⟨hs, isParsed_metreAndOne, e, he, hkind⟩
  · refine absurd (Quantity.short_toTerm_iff.2 ?_) hlong
    have hone : intObstacle 1 = none := intObstacle_of_inRange (by decide)
    obtain ⟨⟨⟩⟩ | ⟨⟨⟩⟩ := hq
    · exact ⟨hone, Fraction.obstacle_eq_none_iff.2 (List.forall_mem_singleton.2 hone)⟩
    · exact ⟨hone, rfl⟩

end UnitCalculator
