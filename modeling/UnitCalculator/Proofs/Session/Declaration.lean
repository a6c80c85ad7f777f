import UnitCalculator.Proofs.Display.Unit
import UnitCalculator.Proofs.Lexeme.Gap
import UnitCalculator.Proofs.Session.Symbols

/-!
Declarations and what they are for. A name that is declared can be assigned to and read, unless the
grammar has another use for it: the line of an assignment to a function or a command is not read,
although the declaration was carried out.
-/

set_option autoImplicit false

namespace UnitCalculator

open Text Run Evaluate

variable {k : CharClasses} {env : Environment} {s : String}

/-! The lines -/

def declaration (s : String) : List Char := "var".toList ++ '(' :: (s.toList ++ [')'])

def assignment (s : String) : List Char := s.toList ++ [' '] ++ ['=', ' ', '1']

theorem space_gap (k : CharClasses) : ∀ c ∈ [' '], k.space c = true := by
  refine List.forall_mem_singleton.2 ?_
  rw [k.space_ascii ' ' (by decide)]
  rfl

theorem word_of_head? {o c : Char} {rest : List Char} (ho : isOperatorChar o = true)
    (h : (o :: rest).head? = some c) : k.word c = false := by
  obtain rfl : o = c := by simpa using h
  exact Display.word_of_operator ho

theorem tokenize_declaration_of (hs : IsIdentifier k s) : tokenize k (declaration s) =
    .ok [.ident "var", .op .openParen, .ident s, .op .closeParen] := by
  have hclose : Lexes k [')'] [.op .closeParen] [] := .operator (by decide) rfl nofun
  have hname : Lexes k s.toList [.ident s] ([')'] ++ []) := .identifier hs fun c => word_of_head? rfl
  have hopen : Lexes k ['('] [.op .openParen] (s.toList ++ [')'] ++ []) :=
    .operator (by decide) rfl nofun
  have hvar : Lexes k "var".toList [.ident "var"] (['('] ++ (s.toList ++ [')']) ++ []) :=
    .identifier (Units.isIdentifier_of_isAsciiWord rfl) fun c => word_of_head? rfl
  exact (hvar.append (hopen.append (hname.append hclose))).tokenize_eq

theorem tokenize_assignment_of (hs : IsIdentifier k s) :
    tokenize k (assignment s) = .ok [.ident s, .op .equals, .int 1] := by
  have hname : Lexes k s.toList [.ident s] [] := .identifier hs nofun
  have hequals : Lexes k ['='] [.op .equals] [] := .operator (by decide) rfl nofun
  have hone : Lexes k ['1'] [.int 1] [] := Display.isLiteral_one.lexes nofun
  have hgap := tokenize_gap (k := k) ['='] ['1'] (List.cons_ne_nil ' ' []) (space_gap k)
  rw [hequals.tokenize_eq, hone.tokenize_eq] at hgap
  have htext : ['=', ' ', '1'] = ['='] ++ [' '] ++ ['1'] := rfl
  rw [assignment, tokenize_gap _ _ (List.cons_ne_nil ' ' []) (space_gap k), hname.tokenize_eq,
    htext, hgap]
  rfl

/-! How they are read -/

section Reading

variable {names : Names} {limit : Int}

theorem parse_declaration (hc : names.kind "var" = .command) (s : String) (hl : 1 ≤ limit) :
    parse names limit [.ident "var", .op .openParen, .ident s, .op .closeParen] =
      .ok (.command "var" [.ident s]) := by
  have hts : Token.op .closeParen ∉ [Token.ident s] := by simp
  have hlevels : 1 ≤ limit.toNat := by omega
  exact Grammar.parse_of_levels_le
    (.value (.sum (.product (.unsigned (.plain (.command "var" hc [.ident s] hts))) .noFactor)
      .noAddition)) hlevels

theorem parse_assignment (hs : names.kind s = .var) (hl : 1 ≤ limit) :
    parse names limit [.ident s, .op .equals, .int 1] = .ok (.binary .equals (.name s) (.int 1)) := by
  have hlevels : 1 ≤ limit.toNat := by omega
  exact Grammar.parse_of_levels_le
    (.assignment (.sum (.product (.unsigned (.plain (.name s (.inr hs)))) .noFactor) .noAddition)
      (.sum (.product (.unsigned (.plain (.number (.int 1) (.int 1) rfl .none .noUnit))) .noFactor)
        .noAddition)) hlevels

/-- What has to stand behind the name, if it is that of a function or a command. -/
def opening? (names : Names) (s : String) : Option Expected :=
  match names.kind s with
  | .function => some (.functionOpen s)
  | .command => some (.commandOpen s)
  | _ => none

theorem opening?_eq_none_iff {s : String} (hc : names.isConstant s = false) :
    opening? names s = none ↔ names.isFunction s = false ∧ names.isCommand s = false := by
  simp only [opening?, Names.kind, hc, Bool.false_eq_true, if_false]
  cases names.isFunction s with
  | true => simp
  | false => cases names.isCommand s <;> simp

open Grammar Reader

theorem result_namedAs {inner : Inner} {s : String} {e : Expected} (h : opening? names s = some e)
    {n : Nat} {r : List Token} (hr : r.head? ≠ some (.op .openParen)) :
    result (namedAs inner s (names.kind s)) ⟨n, r⟩ = .error (.notFound e r.head? n) := by
  unfold opening? at h
  cases hk : names.kind s with
  | constant => simp [hk] at h
  | function =>
    obtain rfl : Expected.functionOpen s = e := by simpa [hk] using h
    rw [namedAs, arguments, result_bind, result_bind, result_expect, if_neg hr]
    rfl
  | command =>
    obtain rfl : Expected.commandOpen s = e := by simpa [hk] using h
    have hopen : result (commandArguments s) ⟨n, r⟩ =
        .error (.notFound (.commandOpen s) r.head? n) := by
      refine (result_bind _ _ _).trans ?_
      rw [result_expect, if_neg hr]
      rfl
    rw [namedAs, result_bind, hopen]
    rfl
  | var => simp [hk] at h

/-- Where nothing opens behind a function or a command, a line is refused at its first name. -/
theorem parse_opening {e : Expected} (h : opening? names s = some e) {r : List Token}
    (hr : r.head? ≠ some (.op .openParen)) (hl : 1 ≤ limit) :
    parse names limit (.ident s :: r) = .error (.notFound e r.head? 1) := by
  obtain ⟨n, hn⟩ : ∃ n, limit.toNat = n + 1 := ⟨limit.toNat - 1, by omega⟩
  have hprimary : result (primary names (within names limit n)) ⟨0, .ident s :: r⟩ =
      .error (.notFound e r.head? 1) := by
    have hnamed : result (namedAs (within names limit n) s (names.kind s)) ⟨1, r⟩ =
        .error (.notFound e r.head? 1) := result_namedAs h hr
    simp [primary, named_eq, Cursor.advance, Except.bind, hnamed]
  have hsign : result (operator? isAdditive) ⟨0, .ident s :: r⟩ = .ok (none, ⟨0, .ident s :: r⟩) :=
    rfl
  have hp : parse names limit (.ident s :: r) =
      (result (line names limit) ⟨0, .ident s :: r⟩).map (·.1) := rfl
  simp [hp, line_eq, assign, expr, hn, within, level, product, unary, Grammar.power, hsign, hprimary,
    Except.bind, Except.map]

theorem parse_tooDeep (hl : limit < 1) (ts : List Token) :
    parse names limit ts = .error (.tooDeep limit) := by
  have hn : limit.toNat = 0 := by omega
  have hp : parse names limit ts = (result (line names limit) ⟨0, ts⟩).map (·.1) := rfl
  simp [hp, line_eq, assign, expr, hn, within, Except.bind, Except.map]

end Reading

theorem Environment.not_isConstant_of_declare {env' : Environment} (h : env.declare s = .ok env') :
    env.isConstant s = false := by
  by_contra hc
  rw [Environment.declare, if_pos (Bool.of_not_eq_false hc)] at h
  cases h

theorem Environment.checkAssignable_of_declare {env' : Environment}
    (h : env.declare s = .ok env') : env'.checkAssignable s = .ok () := by
  have hc := not_isConstant_of_declare h
  obtain ⟨x, hx, hplaces⟩ := Command.declare_changes (Bool.eq_false_iff.1 hc)
  rw [hx] at h
  cases h
  have hv : Table.has s x = true := by
    rw [Table.has, hplaces s, if_pos rfl]
    rfl
  exact (if_neg (Bool.eq_false_iff.1 hc)).trans (if_pos hv)

section Host

variable [Host]

/-! What they come to -/

theorem ends_evaluate_declaration (hc : env.commands = Environment.fresh.commands) (s : String) :
    (∀ env', env.declare s = .ok env' →
        (evaluate (.command "var" [.ident s])).Ends env (.ok none) env') ∧
      ∀ e, env.declare s = .error e → (evaluate (.command "var" [.ident s])).Ends env
        (.error (.failure (.eval (.command (.name e))))) env := by
  have hnote : (note (.evaluation (.command "var" [.ident s]))).Ends env (.ok ()) env :=
    note_evaluation fun _ => Term.obstacle_eq_none_iff.2
      ⟨(by decide : 1 ≤ 100).trans Host.writing_ge, .command (List.forall_mem_singleton.2 rfl)⟩
  have hs : env.commands.get? "var" = some .declare := hc ▸ rfl
  have hcommand {r : Except Stop Unit} {env' : Environment}
      (h : (afterEffect (Command.declareAll env [.ident s])).Ends env r env') :
      (command "var" [.ident s]).Ends env r env' := by
    refine Ends.bind (.environment env) ?_
    rw [hs]
    exact h
  obtain ⟨n, hn⟩ := Host.exists_evaluation_eq (m := 1) (by decide)
  rw [evaluate, hn, evaluateWithin_command]
  refine ⟨fun env' he => ?_, fun e he => ?_⟩
  · have hdone : (afterEffect (Command.declareAll env [.ident s])).Ends env (.ok ()) env' := by
      rw [Command.declareAll, he]
      exact (Ends.setEnvironment env env').bind (.pure () env')
    exact hnote.bind ((hcommand hdone).bind (.pure none env'))
  · have hrefused : (afterEffect (Command.declareAll env [.ident s])).Ends env
        (.error (.failure (.eval (.command (.name e))))) env := by
      rw [Command.declareAll, he]
      exact (Ends.setEnvironment env env).bind (.fail _ env)
    exact hnote.bind (hcommand hrefused).bind_error

theorem parse_declaration_of (h : Reachable k env) (hl : 1 ≤ env.maxDepth) :
    parse env.grammarNames env.maxDepth [.ident "var", .op .openParen, .ident s, .op .closeParen] =
      .ok (.command "var" [.ident s]) := by
  have hkind : env.grammarNames.kind "var" = .command := by
    rw [h.kept.grammarNames]
    rfl
  exact parse_declaration hkind s hl

/-- A line that declares is one that reaches the declaration, and that is carried out. -/
theorem declare_of_runLine (h : Reachable k env) (hs : IsIdentifier k s) {v : Value}
    (hd : (runLine k env (declaration s)).1 = .ok v) :
    1 ≤ env.maxDepth ∧ env.declare s = .ok (env.after k (declaration s)) := by
  have hts := tokenize_declaration_of hs
  by_cases hl : 1 ≤ env.maxDepth
  · have hline := ends_runLine hts (parse_declaration_of h hl)
    obtain ⟨hok, herror⟩ := ends_evaluate_declaration h.kept.commands s
    cases hdeclare : env.declare s with
    | ok env' => exact ⟨hl, congrArg Except.ok (hline.unique (hok env' hdeclare)).2.symm⟩
    | error e =>
      have hfailed := (hline.unique (herror e hdeclare)).1
      rw [hd] at hfailed
      cases hfailed
  · have hdeep : env.maxDepth < 1 := by omega
    have hunread := ends_unread hts (List.cons_ne_nil _ _) (parse_tooDeep hdeep _)
    have hfailed := (runLine_of_ends hunread).1
    rw [hd] at hfailed
    cases hfailed

theorem runLine_declaration_of (h : Reachable k env) (hs : IsIdentifier k s)
    (hl : 1 ≤ env.maxDepth) (hc : env.isConstant s = false) :
    (runLine k env (declaration s)).1 = .ok none ∧
      (env.after k (declaration s)).grammarNames = env.grammarNames ∧
        (env.after k (declaration s)).maxDepth = env.maxDepth := by
  obtain ⟨x, hx, -⟩ := Command.declare_changes (Bool.eq_false_iff.1 hc)
  obtain ⟨hok, hafter⟩ := runLine_of_ends (ends_calculate (tokenize_declaration_of hs)
    (List.cons_ne_nil _ _) (parse_declaration_of h hl)
    ((ends_evaluate_declaration h.kept.commands s).1 _ hx))
  rw [hafter]
  exact ⟨hok, rfl, rfl⟩

theorem ends_evaluate_assignment (h : env.checkAssignable s = .ok ()) :
    (evaluate (.binary .equals (.name s) (.int 1))).Ends env (.ok (some ⟨.real 1, none⟩))
      { env with bindings := env.bindings.set s (some (Environment.real 1)) } := by
  have hone : intObstacle 1 = none := intObstacle_of_inRange (by decide)
  have hshort : (Quantity.toTerm ⟨.int 1, none⟩).Short := Quantity.short_toTerm_iff.2 ⟨hone, rfl⟩
  have hnote : (note (.evaluation (.binary .equals (.name s) (.int 1)))).Ends env (.ok ()) env :=
    note_evaluation fun _ => Term.obstacle_eq_none_iff.2
      ⟨(by decide : 3 ≤ 100).trans Host.writing_ge, .binary (.name s) hshort⟩
  have htarget : (target (.name s)).Ends env (.ok s) env := by
    refine Ends.bind (.environment env) ?_
    rw [h]
    exact Ends.bind (.pure () env) (.pure s env)
  obtain ⟨n, hn⟩ := Host.exists_evaluation_eq (m := 2) (by decide)
  have hvalue : (evaluateWithin (n + 1) (.int 1)).Ends env (.ok (some ⟨.int 1, none⟩)) env :=
    ends_toTerm (q := ⟨.int 1, none⟩) Units.isCanonical_none (fun _ => hshort) n
  rw [evaluate, hn, evaluateWithin_equals]
  exact hnote.bind (htarget.bind (hvalue.bind ((ends_store h ⟨.int 1, none⟩).bind (.pure _ _))))

theorem isFree_of_opening (h : Reachable k env) (hs : IsIdentifier k s)
    (hc : env.isConstant s = false) (ho : opening? env.grammarNames s = none) : IsFree k s := by
  have hnames := h.kept.grammarNames
  have hc : Environment.fresh.grammarNames.isConstant s = false :=
    (congrArg (·.isConstant s) hnames).symm.trans hc
  obtain ⟨hf, hm⟩ := (opening?_eq_none_iff hc).1 (hnames ▸ ho)
  exact ⟨hs, hc, hf, hm⟩

theorem runLine_assignment_of (h : Reachable k env) (hx : IsFree k s) (hl : 1 ≤ env.maxDepth)
    (ha : env.checkAssignable s = .ok ()) :
    (runLine k env (assignment s)).1 = .ok (some ⟨.real 1, none⟩) ∧
      (runLine k (env.after k (assignment s)) s.toList).1 = .ok (some ⟨.real 1, none⟩) := by
  have hkind : env.grammarNames.kind s = .var := by
    rw [h.kept.grammarNames]
    exact hx.kind
  obtain ⟨hone, hassigned⟩ := runLine_of_ends (ends_calculate (tokenize_assignment_of hx.identifier)
    (List.cons_ne_nil _ _) (parse_assignment hkind hl) (ends_evaluate_assignment ha))
  have hreach := h.line (assignment s)
  rw [hassigned] at hreach ⊢
  have hconst : env.constants.get? s = none := by
    rw [h.kept.constants]
    exact Option.isNone_iff_eq_none.1 (Option.isSome_eq_false_iff.1 hx.constant)
  let assigned := { env with bindings := env.bindings.set s (some (Environment.real 1)) }
  have hplace : assigned.bindings.get? s = some (some (Environment.real 1)) :=
    (Table.get?_set s s _ env.bindings).trans (if_pos rfl)
  have hlookup : assigned.lookup s = .ok (Environment.real 1) :=
    Environment.lookup_eq_ok.2 (.inr ⟨hconst, hplace⟩)
  have hshort : (Quantity.toTerm ⟨.real 1, none⟩).Short := Quantity.short_toTerm_iff.2 ⟨rfl, rfl⟩
  obtain ⟨n, hn⟩ := Host.exists_evaluation_eq (m := 2) (by decide)
  have hvalue : (evaluateWithin (n + 1) (Environment.real 1)).Ends assigned
      (.ok (some ⟨.real 1, none⟩)) assigned :=
    ends_toTerm (q := ⟨.real 1, none⟩) Units.isCanonical_none (fun _ => hshort) n
  have hread := (ends_name (n + 1)).2 _ _ hlookup hvalue
  exact ⟨hone, ends_calculate_variable hreach hx hl (by rwa [evaluate, hn])⟩

theorem runLine_opening (hs : IsIdentifier k s) {e : Expected}
    (ho : opening? env.grammarNames s = some e) (hl : 1 ≤ env.maxDepth) :
    (runLine k env (assignment s)).1 =
        .error (.failure (.parse (.notFound e (some (.op .equals)) 1))) ∧
      env.after k (assignment s) = env :=
  runLine_of_ends (ends_unread (tokenize_assignment_of hs) (List.cons_ne_nil _ _)
    (parse_opening ho nofun hl))

/-- A name that is declared is no constant, and it can be assigned to and then read, unless it is that
of a function or a command. The line of an assignment to one of these is not read, although the
declaration was carried out. -/
theorem declared_assignable (h : Reachable k env) (hs : IsIdentifier k s) {v : Value}
    (hd : (runLine k env (declaration s)).1 = .ok v) :
    let declared := env.after k (declaration s)
    let assigned := declared.after k (assignment s)
    env.isConstant s = false ∧
      (opening? env.grammarNames s = none →
        (runLine k declared (assignment s)).1 = .ok (some ⟨.real 1, none⟩) ∧
          (runLine k assigned s.toList).1 = .ok (some ⟨.real 1, none⟩)) ∧
      ∀ e, opening? env.grammarNames s = some e →
        (runLine k declared (assignment s)).1 =
            .error (.failure (.parse (.notFound e (some (.op .equals)) 1))) ∧
          assigned = declared := by
  intro declared assigned
  obtain ⟨hl, hdeclare⟩ := declare_of_runLine h hs hd
  have hconst := Environment.not_isConstant_of_declare hdeclare
  obtain ⟨-, hnames, hdepth⟩ := runLine_declaration_of h hs hl hconst
  have hlimit : 1 ≤ declared.maxDepth := hdepth.symm ▸ hl
  refine ⟨hconst, fun ho => ?_, fun e ho => ?_⟩
  · have hx := isFree_of_opening h hs hconst ho
    exact runLine_assignment_of (h.line _) hx hlimit
      (Environment.checkAssignable_of_declare hdeclare)
  · exact runLine_opening hs (hnames ▸ ho) hlimit

end Host

theorem declared_assignable_x : Reachable .standard .fresh ∧ IsIdentifier .standard "x" ∧
    (runLine .standard .fresh (declaration "x")).1 = .ok none ∧
      let declared := Environment.fresh.after .standard (declaration "x")
      let assigned := declared.after .standard (assignment "x")
      (runLine .standard declared (assignment "x")).1 = .ok (some ⟨.real 1, none⟩) ∧
        (runLine .standard assigned "x".toList).1 = .ok (some ⟨.real 1, none⟩) := by
  have h : Reachable .standard .fresh := .start false Environment.defaultDepth
  have hs := isFree_x.identifier
  obtain ⟨hd, -⟩ := runLine_declaration_of h hs (by decide) rfl
  exact ⟨h, hs, hd, (declared_assignable h hs hd).2.1 rfl⟩

theorem sine_not_assignable :
    let declared := Environment.fresh.after .standard (declaration "sin")
    (runLine .standard .fresh (declaration "sin")).1 = .ok none ∧
      (runLine .standard declared (assignment "sin")).1 =
        .error (.failure (.parse (.notFound (.functionOpen "sin") (some (.op .equals)) 1))) := by
  intro declared
  have h : Reachable .standard .fresh := .start false Environment.defaultDepth
  have hs : IsIdentifier .standard "sin" := Units.isIdentifier_of_isAsciiWord rfl
  obtain ⟨hd, hnames, hdepth⟩ := runLine_declaration_of h hs (by decide) rfl
  have ho : opening? declared.grammarNames "sin" = some (.functionOpen "sin") := by
    rw [hnames]
    rfl
  have hl : 1 ≤ declared.maxDepth := by
    rw [hdepth]
    decide
  exact ⟨hd, (runLine_opening hs ho hl).1⟩

end UnitCalculator
