import UnitCalculator.CommandLine
import UnitCalculator.Proofs.Lexeme.Gap
import UnitCalculator.Proofs.Session.Execution

/-!
What the command writes for lines: the results of one session, up to the first line that fails or
exits. Line ends and blank lines do nothing, so it does not matter how the lines were given.
-/

set_option autoImplicit false

namespace UnitCalculator

/-- White space at the end of a line does nothing, not even in the trace. -/
theorem runLine_append [Host] {k : Text.CharClasses} {env : Environment} (line : List Char)
    {gap : List Char} (hgap : ∀ c ∈ gap, k.space c = true) :
    runLine k env (line ++ gap) = runLine k env line := by
  unfold runLine calculate
  rw [tokenize_append line hgap, tokenTrace_append line hgap]

namespace CommandLine

def exitStatus : Option Stop → Nat
  | none | some .exit => 0
  | some (.failure _) => 1

theorem status_stopped (s : Stop) : (stopped s).status = exitStatus (some s) := by
  cases s with
  | exit | failure f => rfl

theorem output_stopped (s : Stop) : (stopped s).output = [] := by
  cases s with
  | exit | failure f => rfl

section Host

variable [Host] {k : Text.CharClasses} {env : Environment}

def shown (k : Text.CharClasses) (env : Environment) (line : List Char) : Except Stop String :=
  match (runLine k env line).1 with
  | .error s => .error s
  | .ok v => ((env.after k line).display v).mapError fun o => .failure (.unwritten o)

theorem shown_of_error {line : List Char} {s : Stop} (h : (runLine k env line).1 = .error s) :
    shown k env line = .error s := by
  rw [shown, h]

theorem shown_of_ok {line : List Char} {v : Value} {text : String}
    (h : (runLine k env line).1 = .ok v) (hv : (env.after k line).display v = .ok text) :
    shown k env line = .ok text := by
  rw [shown, h]
  show Except.mapError _ ((env.after k line).display v) = _
  rw [hv]
  rfl

/-- What is shown for the lines in front of the first one that stops, and why that one stops, if there
is one. The lines behind it are not looked at. -/
inductive Shows (k : Text.CharClasses) :
    Environment → List (List Char) → List String → Option Stop → Prop where
  | nothing {env : Environment} : Shows k env [] [] none
  | stop {env : Environment} {line : List Char} {lines : List (List Char)} {s : Stop} :
      shown k env line = .error s → Shows k env (line :: lines) [] (some s)
  | line {env : Environment} {line : List Char} {lines : List (List Char)} {text : String}
      {texts : List String} {s : Option Stop} : shown k env line = .ok text →
      Shows k (env.after k line) lines texts s → Shows k env (line :: lines) (text :: texts) s

theorem Shows.unique {env : Environment} {lines : List (List Char)} {texts texts' : List String}
    {s s' : Option Stop} (h : Shows k env lines texts s) (h' : Shows k env lines texts' s') :
    texts' = texts ∧ s' = s := by
  induction h generalizing texts' with
  | nothing =>
    cases h'
    exact ⟨rfl, rfl⟩
  | stop hr =>
    cases h' with
    | stop hr' =>
      cases hr.symm.trans hr'
      exact ⟨rfl, rfl⟩
    | line hr' _ => cases hr.symm.trans hr'
  | line hr _ ih =>
    cases h' with
    | stop hr' => cases hr.symm.trans hr'
    | line hr' hrest =>
      cases hr.symm.trans hr'
      obtain ⟨rfl, rfl⟩ := ih hrest
      exact ⟨rfl, rfl⟩

variable {line : List Char} {lines : List (List Char)}

theorem execute_eq : execute k env line = match shown k env line with
    | .error s => ⟨[], (runLine k env line).2, some s⟩
    | .ok text => ⟨[text].filter (!·.isEmpty), (runLine k env line).2, none⟩ := by
  unfold execute shown Environment.after
  obtain ⟨_ | v, m⟩ := runLine k env line
  · rfl
  · dsimp only
    generalize m.env.display v = shown
    cases shown with
    | error o => rfl
    | ok text =>
      simp only [Except.mapError, List.filter_cons, List.filter_nil]
      cases text.isEmpty <;> rfl

theorem run_of_error {s : Stop} (h : shown k env line = .error s) :
    run (execute k) env (line :: lines) =
      ⟨exitStatus (some s), [], (runLine k env line).2.trace.reverse ++ (stopped s).errors⟩ := by
  rw [run, execute_eq, h]
  simp only [status_stopped, output_stopped, List.append_nil]

theorem run_of_ok {text : String} (h : shown k env line = .ok text) :
    let rest := run (execute k) (env.after k line) lines
    run (execute k) env (line :: lines) =
      ⟨rest.status, [text].filter (!·.isEmpty) ++ rest.output,
        (runLine k env line).2.trace.reverse ++ rest.errors⟩ := by
  rw [run, execute_eq, h]
  rfl

/-- Every list of lines has a transcript, and the command writes it, whatever lines come behind
one that stops. -/
theorem exists_shows (k : Text.CharClasses) (env : Environment) (lines : List (List Char)) :
    ∃ texts s, Shows k env lines texts s ∧
      (run (execute k) env lines).status = exitStatus s ∧
      (run (execute k) env lines).output = texts.filter (!·.isEmpty) ∧
      (s ≠ none → ∀ more,
        run (execute k) env (lines ++ more) = run (execute k) env lines) := by
  induction lines generalizing env with
  | nil => exact ⟨[], none, .nothing, rfl, rfl, fun h => absurd rfl h⟩
  | cons line lines ih =>
    cases h : shown k env line with
    | error s =>
      refine ⟨[], some s, .stop h, ?_, ?_, fun _ more => ?_⟩
      · rw [run_of_error h]
      · rw [run_of_error h]
        rfl
      · rw [List.cons_append, run_of_error h, run_of_error h]
    | ok text =>
      obtain ⟨texts, s, hs, hstatus, houtput, hmore⟩ := ih (env.after k line)
      refine ⟨_, s, .line h hs, ?_, ?_, fun hn more => ?_⟩
      · rw [run_of_ok h]
        exact hstatus
      · rw [run_of_ok h]
        exact (congrArg (_ ++ ·) houtput).trans (List.filter_append [_] texts).symm
      · rw [List.cons_append, run_of_ok h, run_of_ok h, hmore hn more]

theorem run_congr {line' : List Char} {lines' : List (List Char)}
    (h : runLine k env line' = runLine k env line)
    (hrest : ∀ e, run (execute k) e lines' = run (execute k) e lines) :
    run (execute k) env (line' :: lines') = run (execute k) env (line :: lines) := by
  have hline : execute k env line' = execute k env line := by
    unfold execute
    rw [h]
  rw [run, run, hline]
  simp only [hrest]

theorem runLine_nil : runLine k env [] = (.ok none, .start env) := by
  have hnotes : (Run.notes fun _ => tokenTrace []).run.run (.start env) = (.ok (), .start env) := by
    rw [Run.run_notes]
    exact congrArg (Prod.mk _) (ite_self (Machine.start env))
  unfold runLine calculate
  rw [tokenize_nil, lexemes_nil, Run.run_bind, hnotes]
  rfl

theorem run_blank {gap : List Char} (hgap : ∀ c ∈ gap, k.space c = true) :
    run (execute k) env (gap :: lines) = run (execute k) env lines := by
  have h : runLine k env gap = (.ok none, .start env) :=
    (runLine_append [] hgap).trans runLine_nil
  have hshown : shown k env gap = .ok "" := shown_of_ok (congrArg Prod.fst h) rfl
  rw [run_of_ok hshown, Environment.after, h]
  rfl

end Host

/-! Lines in a text -/

def IsBreak (c : Char) : Prop := c = '\n' ∨ c = '\r'

/-- The text is that of the lines, each with one of the ends behind it, the last one with or without. -/
inductive Written (ends : List (List Char)) : List (List Char) → List Char → Prop where
  | nothing : Written ends [] []
  | last (line : List Char) : Written ends [line] line
  | line {line : List Char} {lines : List (List Char)} {ending text : List Char} :
      ending ∈ ends → Written ends lines text →
        Written ends (line :: lines) (line ++ (ending ++ text))

def inputEnds : List (List Char) := [['\n'], ['\r', '\n']]

def scriptEnds : List (List Char) := ['\r'] :: inputEnds

theorem space_of_isBreak {k : Text.CharClasses} {c : Char} (hc : IsBreak c) : k.space c = true := by
  obtain rfl | rfl := hc
  · rw [k.space_ascii _ (by decide)]
    rfl
  · rw [k.space_ascii _ (by decide)]
    rfl

theorem lines_cons {c : Char} (hc : c ≠ '\n') (text : List Char) :
    CommandLine.lines (c :: text) =
      match CommandLine.lines text with
      | [] => [[c]]
      | l :: ls => (c :: l) :: ls :=
  if_neg hc

theorem lines_of_unbroken {line : List Char} (hne : line ≠ []) (hline : ∀ c ∈ line, c ≠ '\n') :
    CommandLine.lines line = [line] := by
  induction line with
  | nil => exact absurd rfl hne
  | cons c line ih =>
    obtain ⟨hc, hline⟩ := List.forall_mem_cons.1 hline
    rw [lines_cons hc]
    by_cases hl : line = []
    · subst hl
      rfl
    · rw [ih hl hline]

theorem lines_append {line : List Char} (hline : ∀ c ∈ line, c ≠ '\n') (text : List Char) :
    CommandLine.lines (line ++ '\n' :: text) = (line ++ ['\n']) :: CommandLine.lines text := by
  induction line with
  | nil => rfl
  | cons c line ih =>
    obtain ⟨hc, hline⟩ := List.forall_mem_cons.1 hline
    rw [List.cons_append, lines_cons hc, ih hline]
    rfl

theorem withLineFeeds_append {line : List Char} (hline : ∀ c ∈ line, c ≠ '\r') (text : List Char) :
    withLineFeeds (line ++ text) = line ++ withLineFeeds text := by
  induction line with
  | nil => rfl
  | cons c line ih =>
    obtain ⟨hc, hline⟩ := List.forall_mem_cons.1 hline
    rw [List.cons_append, withLineFeeds, if_neg hc, ih hline]
    · rfl
    · rintro _ rfl
      exact absurd rfl hc

section Host

variable [Host] {k : Text.CharClasses}

theorem run_input {lines : List (List Char)} {text : List Char} (h : Written inputEnds lines text)
    (hlines : ∀ line ∈ lines, ∀ c ∈ line, ¬IsBreak c) (env : Environment) :
    run (execute k) env (CommandLine.lines text) = run (execute k) env lines := by
  induction h generalizing env with
  | nothing => rfl
  | last line =>
    by_cases hne : line = []
    · subst hne
      exact (run_blank fun _ h => (List.not_mem_nil h).elim).symm
    · have hline := hlines line List.mem_cons_self
      rw [lines_of_unbroken hne fun c hc hn => hline c hc (.inl hn)]
  | @line line lines ending text he _ ih =>
    obtain ⟨hline, hlines⟩ := List.forall_mem_cons.1 hlines
    have hunbroken : ∀ c ∈ line, c ≠ '\n' := fun c hc hn => hline c hc (.inl hn)
    have hends : ending = ['\n'] ∨ ending = ['\r', '\n'] := by simpa [inputEnds] using he
    have hrun {gap : List Char} (hgap : ∀ c ∈ gap, IsBreak c) :
        run (execute k) env ((line ++ gap) :: CommandLine.lines text) =
          run (execute k) env (line :: lines) :=
      run_congr (runLine_append line fun c hc => space_of_isBreak (hgap c hc)) (ih hlines)
    obtain rfl | rfl := hends
    · rw [List.singleton_append, lines_append hunbroken]
      exact hrun (List.forall_mem_singleton.2 (.inl rfl))
    · have hreturn : ∀ c ∈ line ++ ['\r'], c ≠ '\n' :=
        List.forall_mem_append.2 ⟨hunbroken, List.forall_mem_singleton.2 (by decide)⟩
      have htext : line ++ (['\r', '\n'] ++ text) = (line ++ ['\r']) ++ '\n' :: text := by simp
      rw [htext, lines_append hreturn, List.append_assoc]
      exact hrun (List.forall_mem_cons.2 ⟨.inr rfl, List.forall_mem_singleton.2 (.inl rfl)⟩)

/-- The end of one line of a script, and what is read behind it. A carriage return and the line feed of
a blank line behind it are a single end, but the blank line would do nothing. -/
theorem exists_withLineFeeds_ending {ending : List Char} (he : ending ∈ scriptEnds)
    (k : Text.CharClasses) (text : List Char) :
    ∃ rest, withLineFeeds (ending ++ text) = '\n' :: rest ∧
      ∀ env, run (execute k) env (CommandLine.lines rest) =
        run (execute k) env (CommandLine.lines (withLineFeeds text)) := by
  have hends : ending = ['\r'] ∨ ending = ['\n'] ∨ ending = ['\r', '\n'] := by
    simpa [scriptEnds, inputEnds] using he
  obtain rfl | rfl | rfl := hends
  · by_cases htext : ∃ t, text = '\n' :: t
    · obtain ⟨t, rfl⟩ := htext
      refine ⟨withLineFeeds t, rfl, fun env => ?_⟩
      have hfeed : withLineFeeds ('\n' :: t) = [] ++ '\n' :: withLineFeeds t := by
        rw [withLineFeeds]
        · rfl
        · nofun
      rw [hfeed, lines_append (by simp), List.nil_append,
        run_blank (List.forall_mem_singleton.2 (space_of_isBreak (.inl rfl)))]
    · refine ⟨withLineFeeds text, ?_, fun _ => rfl⟩
      rw [List.singleton_append, withLineFeeds]
      · rfl
      · rintro t - rfl
        exact htext ⟨t, rfl⟩
  · refine ⟨withLineFeeds text, ?_, fun _ => rfl⟩
    rw [List.singleton_append, withLineFeeds]
    · rfl
    · nofun
  · exact ⟨withLineFeeds text, rfl, fun _ => rfl⟩

theorem run_script {lines : List (List Char)} {text : List Char} (h : Written scriptEnds lines text)
    (hlines : ∀ line ∈ lines, ∀ c ∈ line, ¬IsBreak c) (env : Environment) :
    run (execute k) env (CommandLine.lines (withLineFeeds text)) = run (execute k) env lines := by
  have hunbroken {line : List Char} (hline : ∀ c ∈ line, ¬IsBreak c) :
      (∀ c ∈ line, c ≠ '\n') ∧ ∀ c ∈ line, c ≠ '\r' :=
    ⟨fun c hc hn => hline c hc (.inl hn), fun c hc hr => hline c hc (.inr hr)⟩
  induction h generalizing env with
  | nothing => rfl
  | last line =>
    obtain ⟨hfeed, hreturn⟩ := hunbroken (hlines line List.mem_cons_self)
    have htext : withLineFeeds line = line := by
      have happend := withLineFeeds_append hreturn []
      rwa [List.append_nil, withLineFeeds, List.append_nil] at happend
    rw [htext]
    by_cases hne : line = []
    · subst hne
      exact (run_blank fun _ h => (List.not_mem_nil h).elim).symm
    · rw [lines_of_unbroken hne hfeed]
  | @line line lines ending text he _ ih =>
    obtain ⟨hline, hlines⟩ := List.forall_mem_cons.1 hlines
    obtain ⟨hfeed, hreturn⟩ := hunbroken hline
    obtain ⟨rest, hrest, hrun⟩ := exists_withLineFeeds_ending he k text
    have hgap : ∀ c ∈ ['\n'], k.space c = true :=
      List.forall_mem_singleton.2 (space_of_isBreak (.inl rfl))
    rw [withLineFeeds_append hreturn, hrest, lines_append hfeed]
    exact run_congr (runLine_append line hgap) fun e => (hrun e).trans (ih hlines e)

end Host

end CommandLine
end UnitCalculator
