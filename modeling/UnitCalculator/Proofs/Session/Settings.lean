import UnitCalculator.Proofs.Display.Integer
import UnitCalculator.Proofs.Grammar.Nesting
import UnitCalculator.Proofs.Session.Pairs
import UnitCalculator.Proofs.Session.Variables

/-!
What the settings of output and trace do to the answers of a session. The output does nothing, and the
trace nothing either until it comes to what cannot be written; a term that is too high for that is an
error in a session that traces, and only there.
-/

set_option autoImplicit false

namespace UnitCalculator

open Run Evaluate

section Host

variable [Host]

/-- What the lines come to, one after the other. -/
def answers (k : Text.CharClasses) : Environment → List (List Char) → List (Except Stop Value)
  | _, [] => []
  | env, line :: lines => (runLine k env line).1 :: answers k (env.after k line) lines

/-- If the line is read as a term, the term is low enough to be written. -/
def IsWritable (k : Text.CharClasses) (names : Names) (limit : Int) (line : List Char) : Prop :=
  ∀ ts t, tokenize k line = .ok ts → parse names limit ts = .ok t → t.height ≤ Host.writing

/-- One of the sessions traces and the other does not, and one of the answers is that the line, or an
integer that its evaluation comes to, cannot be written. -/
structure Parts (k : Text.CharClasses) (e₁ e₂ : Environment) (line : List Char) : Prop where
  debug_ne : e₁.debug ≠ e₂.debug
  unwritten : ∃ o : Obstacle, ((runLine k e₁ line).1 = .error (.failure o.failure) ∨
      (runLine k e₂ line).1 = .error (.failure o.failure)) ∧
    (IsWritable k e₁.grammarNames e₁.maxDepth line → o = .tooLong)

section Lines

variable {k : Text.CharClasses} {e₁ e₂ : Environment}

theorem Reachable.writable (h : Reachable k e₁) : e₁.Writable := by
  intro s t ht
  obtain ⟨q, rfl, -⟩ := h.kept.lookup ht
  exact Environment.height_toTerm_le q

theorem Paired.calculate {traced : Prop} (hp : Paired traced e₁ e₂) (line : List Char) :
    (∃ r e₁' e₂', (calculate k line).Ends e₁ r e₁' ∧ (calculate k line).Ends e₂ r e₂' ∧
      Paired traced e₁' e₂') ∨
      ¬traced ∧ Unwritten (IsWritable k e₁.grammarNames e₁.maxDepth line) (calculate k line)
        (calculate k line) e₁ e₂ := by
  cases hts : tokenize k line with
  | error e => exact .inl ⟨_, e₁, e₂, ends_refused hts e₁, ends_refused hts e₂, hp⟩
  | ok ts =>
  by_cases hne : ts = []
  · subst hne
    exact .inl ⟨_, e₁, e₂, ends_blank hts e₁, ends_blank hts e₂, hp⟩
  have hread : parse e₂.grammarNames e₂.maxDepth ts = parse e₁.grammarNames e₁.maxDepth ts := by
    rw [hp.agrees.grammarNames, hp.agrees.maxDepth]
  cases hr : parse e₁.grammarNames e₁.maxDepth ts with
  | error e =>
    exact .inl ⟨_, e₁, e₂, ends_unread hts hne hr, ends_unread hts hne (hread.trans hr), hp⟩
  | ok t =>
    obtain ⟨r, e₁', e₂', h₁, h₂, hp'⟩ | ⟨ht, o, e', ho, he⟩ :=
      alike_evaluateWithin Host.evaluation t e₁ e₂ hp
    · exact .inl ⟨r, e₁', e₂', ends_calculate hts hne hr h₁,
        ends_calculate hts hne (hread.trans hr) h₂, hp'⟩
    · exact .inr ⟨ht, o, e', fun hw => ho (hw ts t hts hr),
        he.imp (ends_calculate hts hne hr) (ends_calculate hts hne (hread.trans hr))⟩

theorem Reachable.line_of_agrees (h : Reachable k e₁) (ha : e₁.Agrees e₂) (line : List Char) :
    ((runLine k e₁ line).1 = (runLine k e₂ line).1 ∧
      (e₁.after k line).Agrees (e₂.after k line) ∧
        (e₁.debug = e₂.debug → (e₁.after k line).debug = (e₂.after k line).debug)) ∨
      Parts k e₁ e₂ line := by
  have hp : Paired (e₁.debug = e₂.debug) e₁ e₂ := ⟨ha, h.writable, Eq.symm⟩
  obtain ⟨r, e₁', e₂', h₁, h₂, hp'⟩ | ⟨hd, o, e', ho, he⟩ := hp.calculate (k := k) line
  · obtain ⟨hr₁, rfl⟩ := runLine_of_ends h₁
    obtain ⟨hr₂, rfl⟩ := runLine_of_ends h₂
    exact .inl ⟨hr₁.trans hr₂.symm, hp'.agrees, fun hd => (hp'.trace hd).symm⟩
  · exact .inr ⟨hd, o, he.imp (fun he => (runLine_of_ends he).1) fun he => (runLine_of_ends he).1, ho⟩

end Lines

/-! Terms that are too high to be written -/

theorem runLine_high {k : Text.CharClasses} {env : Environment} {line : List Char}
    (hd : env.debug = true) (hw : ¬IsWritable k env.grammarNames env.maxDepth line) :
    (runLine k env line).1 = tooDeep ∧ env.after k line = env := by
  simp only [IsWritable, not_forall] at hw
  obtain ⟨ts, t, hts, hp, ht⟩ := hw
  have hshort : t.Short := IsParsed.short ⟨_, _, line, ts, hts, hp⟩
  obtain ⟨o, ho⟩ := Option.ne_none_iff_exists'.1 fun ho => ht (Term.obstacle_eq_none_iff.1 ho).1
  obtain rfl := hshort.eq_tooDeep ho
  have hnote : (note (.evaluation t)).Ends env (.error (.failure (.eval .tooDeep))) env :=
    note_evaluation_unwritten hd ho
  obtain ⟨n, hn⟩ := Host.exists_evaluation_eq (m := 1) (by decide)
  have he : (evaluate t).Ends env tooDeep env := by
    rw [evaluate, hn]
    unfold evaluateWithin
    exact hnote.bind_error
  exact (ends_runLine hts hp).unique he

theorem runLine_sum {k : Text.CharClasses} {env : Environment} {line : List Char}
    {ts : List Token} {s : String} {t : Term} {e : NameError} (hd : env.debug = false)
    (hs : env.lookup s = .error e) (hts : tokenize k line = .ok ts)
    (hp : parse env.grammarNames env.maxDepth ts = .ok (.binary .plus (.name s) t)) :
    (runLine k env line).1 = .error (.failure (.eval (.name e))) := by
  have he (n : Nat) : (evaluateWithin (n + 2) (.binary .plus (.name s) t)).Ends env
      (.error (.failure (.eval (.name e)))) env := by
    rw [evaluateWithin_binary (n + 1) (by decide)]
    have hnote : (note (.evaluation (.binary .plus (.name s) t))).Ends env (.ok ()) env :=
      .note fun h => absurd h (by simp [hd])
    exact hnote.bind ((ends_name n).1 e hs).bind_error
  obtain ⟨n, hn⟩ := Host.exists_evaluation_eq (m := 2) (by decide)
  have hends := ends_runLine hts hp
  rw [evaluate, hn] at hends
  exact (hends.unique (he n)).1

end Host

/-! A sum whose right operand cannot be written out -/

theorem Term.nesting_le_height (t : Term) : t.nesting ≤ t.height := by
  have heights {ts : List Term} (h : ∀ t ∈ ts, t.nesting ≤ t.height) :
      nesting.nestings ts ≤ height.heights ts := by
    induction ts with
    | nil => exact Nat.le_refl _
    | cons t ts ih =>
      have ht := h t List.mem_cons_self
      have hts := ih fun u hu => h u (List.mem_cons_of_mem t hu)
      simp only [nesting.nestings, height.heights]
      omega
  induction t with
  | signed o t ih =>
    simp only [nesting, height]
    omega
  | binary o l r hl hr =>
    simp only [nesting, height]
    omega
  | call f ts h =>
    have hts := heights h
    simp only [nesting, height]
    omega
  | _ => exact Nat.zero_le _

namespace Grammar.Derivation

variable {names : Names}

/-- A one, and around it parentheses with a product and a sum behind each: `((1)*1+1)*1*1+1+1`. -/
def mound : Nat → Derivation names .expr
  | 0 => .sum (.product literalOne .noFactor) .noAddition
  | n + 1 =>
    .sum (.product (.unsigned (.plain (.parenthesized (mound n)))) (timesOnes (n + 1)))
      (plusOnes (n + 1))

theorem isAdditive_plus : isAdditive .plus = true := rfl

def moundBehind {s : String} (hs : names.kind s = .var) (n : Nat) : Derivation names .assign :=
  .value (.sum (.product (.unsigned (.plain (.name s (.inr hs)))) .noFactor)
    (.addition .plus isAdditive_plus
      (.product (.unsigned (.plain (.parenthesized (mound n)))) .noFactor) .noAddition))

theorem levels_mound (n : Nat) : (mound n : Derivation names .expr).levels = n + 1 := by
  induction n with
  | zero => rfl
  | succ n ih =>
    simp only [mound, levels, ih, levels_timesOnes, levels_plusOnes]
    omega

theorem nesting_mound (n : Nat) :
    (mound n : Derivation names .expr).tree.nesting = n * (n + 1) := by
  induction n with
  | zero => rfl
  | succ n ih =>
    let product := (timesOnes (n + 1) : Derivation names .factors).tree
      (mound n : Derivation names .expr).tree
    have hp : product.nesting = _ + (n + 1) := nesting_timesOnes (n + 1) _
    have hs : (mound (n + 1) : Derivation names .expr).tree.nesting = product.nesting + (n + 1) :=
      nesting_plusOnes (n + 1) product
    rw [hs, hp, ih, nests_succ]
    omega

def onesBehind (o : Operator) : Nat → List Token
  | 0 => []
  | n + 1 => .op o :: .int 1 :: onesBehind o n

theorem yield_timesOnes (n : Nat) :
    (timesOnes n : Derivation names .factors).yield = onesBehind .times n := by
  induction n with
  | zero => rfl
  | succ n ih => simp [timesOnes, literalOne, onesBehind, Suffixes.tokens, ih]

theorem yield_plusOnes (n : Nat) :
    (plusOnes n : Derivation names .additions).yield = onesBehind .plus n := by
  induction n with
  | zero => rfl
  | succ n ih => simp [plusOnes, literalOne, onesBehind, Suffixes.tokens, ih]

theorem yield_mound_succ (n : Nat) : (mound (n + 1) : Derivation names .expr).yield =
    .op .openParen :: ((mound n : Derivation names .expr).yield ++ .op .closeParen ::
      (onesBehind .times (n + 1) ++ onesBehind .plus (n + 1))) := by
  simp [mound, yield_timesOnes, yield_plusOnes]

end Grammar.Derivation

section Texts

open Grammar Derivation

variable {k : Text.CharClasses} {rest : List Char}

def GoesOn (rest : List Char) : Prop := ∀ c, rest.head? = some c → c = '*' ∨ c = '+' ∨ c = ')'

theorem lexes_one (hr : GoesOn rest) : Lexes k ['1'] [.int 1] rest := by
  refine Display.isLiteral_one.lexes fun c hc => ⟨?_, fun _ w m hw => ?_⟩
  · obtain rfl | rfl | rfl := hr c hc <;> rfl
  · cases w with
    | nil =>
      cases hw
      rfl
    | cons d w => simp at hw

theorem lexes_operator {o : Operator} {c : Char} (ho : o ∈ Operator.all)
    (ht : o.text.toList = [c]) (hc : c ≠ '/') : Lexes k [c] [.op o] rest :=
  .operator ho ht fun h => absurd h hc

theorem lexes_openParen : Lexes k ['('] [.op .openParen] rest :=
  lexes_operator (by decide) rfl (by decide)

theorem lexes_closeParen : Lexes k [')'] [.op .closeParen] rest :=
  lexes_operator (by decide) rfl (by decide)

def onesText (c : Char) : Nat → List Char
  | 0 => []
  | n + 1 => c :: '1' :: onesText c n

theorem goesOn_onesText {c : Char} (hc : c = '*' ∨ c = '+') (hr : GoesOn rest) (n : Nat) :
    GoesOn (onesText c n ++ rest) := by
  cases n with
  | zero => exact hr
  | succ n =>
    intro d hd
    cases hd
    exact hc.imp_right .inl

theorem lexes_onesText {o : Operator} {c : Char} (ho : o ∈ Operator.all)
    (ht : o.text.toList = [c]) (hc : c = '*' ∨ c = '+') (hr : GoesOn rest) (n : Nat) :
    Lexes k (onesText c n) (onesBehind o n) rest := by
  induction n with
  | zero => exact .nil k rest
  | succ n ih =>
    have hslash : c ≠ '/' := by
      rintro rfl
      simp at hc
    exact (lexes_operator ho ht hslash).append ((lexes_one (goesOn_onesText hc hr n)).append ih)

def moundText : Nat → List Char
  | 0 => ['1']
  | n + 1 => '(' :: (moundText n ++ ')' :: (onesText '*' (n + 1) ++ onesText '+' (n + 1)))

theorem goesOn_closeParen (rest : List Char) : GoesOn (')' :: rest) := by
  intro c hc
  cases hc
  exact .inr (.inr rfl)

theorem lexes_moundText (names : Names) (hr : GoesOn rest) (n : Nat) :
    Lexes k (moundText n) (mound n : Derivation names .expr).yield rest := by
  induction n generalizing rest with
  | zero => exact lexes_one hr
  | succ n ih =>
    rw [yield_mound_succ]
    have hplus := lexes_onesText (k := k) (o := .plus) (by decide) rfl (.inr rfl) hr (n + 1)
    have htimes := lexes_onesText (k := k) (o := .times) (by decide) rfl (.inl rfl)
      (goesOn_onesText (.inr rfl) hr (n + 1)) (n + 1)
    have hbehind := lexes_closeParen.append (htimes.append hplus)
    exact lexes_openParen.append ((ih (goesOn_closeParen _)).append hbehind)

def moundBehindText (n : Nat) : List Char := 'x' :: '+' :: '(' :: (moundText n ++ [')'])

theorem tokenize_moundBehind {names : Names} (hx : names.kind "x" = .var) (n : Nat) :
    tokenize .standard (moundBehindText n) = .ok (moundBehind hx n).yield := by
  have hname : Lexes .standard ['x'] [.ident "x"] ('+' :: '(' :: (moundText n ++ [')']) ++ []) :=
    Lexes.identifier isFree_x.identifier fun c hc => by
      cases hc
      decide
  have hplus : Lexes .standard ['+'] [.op .plus] ('(' :: (moundText n ++ [')']) ++ []) :=
    lexes_operator (by decide) rfl (by decide)
  have hmound := lexes_moundText (k := .standard) names (goesOn_closeParen []) n
  have hall := hname.append (hplus.append (lexes_openParen.append
    (hmound.append lexes_closeParen)))
  have hyield : (moundBehind hx n).yield = [.ident "x"] ++ ([.op .plus] ++ ([.op .openParen] ++
      ((mound n : Derivation names .expr).yield ++ [.op .closeParen]))) := by
    simp [moundBehind]
  rw [hyield]
  exact hall.tokenize_eq

theorem parse_moundBehind {names : Names} (hx : names.kind "x" = .var) {n : Nat} {limit : Int}
    (hn : n + 3 ≤ limit.toNat) : parse names limit (moundBehind hx n).yield =
      .ok (.binary .plus (.name "x") (mound n : Derivation names .expr).tree) := by
  refine parse_of_levels_le (moundBehind hx n) ?_
  simp only [moundBehind, levels, levels_mound]
  omega

end Texts

/-- Environments that differ in the settings of output and trace answer all lines alike and stay
the same but for these settings, if both trace or neither does. Else they do so up to a first line that
parts them, if there is one: something that only one of them writes cannot be written. A line with a
term that is too high is an error where there is a trace, and changes nothing. -/
theorem Reachable.answers_of_agrees [Host] {k : Text.CharClasses} {e₁ e₂ : Environment}
    (h : Reachable k e₁) (ha : e₁.Agrees e₂) :
    (e₁.debug = e₂.debug → ∀ lines, answers k e₁ lines = answers k e₂ lines ∧
        (e₁.afterAll k lines).Agrees (e₂.afterAll k lines)) ∧
      (∀ lines, answers k e₁ lines = answers k e₂ lines ∧
          (e₁.afterAll k lines).Agrees (e₂.afterAll k lines) ∨
        ∃ before line rest, lines = before ++ line :: rest ∧
          answers k e₁ before = answers k e₂ before ∧
          (e₁.afterAll k before).Agrees (e₂.afterAll k before) ∧
          Parts k (e₁.afterAll k before) (e₂.afterAll k before) line) ∧
      ∀ line, ¬IsWritable k e₁.grammarNames e₁.maxDepth line → e₁.debug = true →
        (runLine k e₁ line).1 = tooDeep ∧ e₁.after k line = e₁ := by
  refine ⟨fun hd lines => ?_, fun lines => ?_, fun line hw hd => runLine_high hd hw⟩
  · induction lines generalizing e₁ e₂ with
    | nil => exact ⟨rfl, ha⟩
    | cons line lines ih =>
      obtain ⟨hr, ha', hd'⟩ | hparts := h.line_of_agrees ha line
      · obtain ⟨hrest, ha''⟩ := ih (h.line line) ha' (hd' hd)
        exact ⟨congrArg₂ List.cons hr hrest, ha''⟩
      · exact absurd hd hparts.debug_ne
  · induction lines generalizing e₁ e₂ with
    | nil => exact .inl ⟨rfl, ha⟩
    | cons line lines ih =>
      obtain ⟨hr, ha', -⟩ | hparts := h.line_of_agrees ha line
      · obtain ⟨hrest, ha''⟩ | ⟨before, l, rest, hsplit, hrest, ha'', hparts⟩ := ih (h.line line) ha'
        · exact .inl ⟨congrArg₂ List.cons hr hrest, ha''⟩
        · exact .inr ⟨line :: before, l, rest, congrArg (List.cons line) hsplit,
            congrArg₂ List.cons hr hrest, ha'', hparts⟩
      · exact .inr ⟨[], line, lines, rfl, rfl, ha, hparts⟩

def tracing : Environment := { Environment.fresh with debug := true }

theorem agrees_tracing : tracing.Agrees .fresh := ⟨rfl, rfl, rfl, rfl, rfl⟩

theorem kind_x : tracing.grammarNames.kind "x" = .var := rfl

theorem high_mound (names : Names) : Host.writing <
    (Grammar.Derivation.mound 72 : Grammar.Derivation names .expr).tree.height := by
  have hn : (Grammar.Derivation.mound 72 : Grammar.Derivation names .expr).tree.nesting = _ :=
    Grammar.Derivation.nesting_mound 72
  have hle := Term.nesting_le_height
    (Grammar.Derivation.mound 72 : Grammar.Derivation names .expr).tree
  have hw : Host.writing = 330 := rfl
  omega

theorem not_isWritable_moundBehind : ¬IsWritable .standard tracing.grammarNames tracing.maxDepth
    (moundBehindText 72) := by
  intro hw
  have hle := hw _ _ (tokenize_moundBehind kind_x 72) (parse_moundBehind kind_x (by decide))
  have hlt := high_mound tracing.grammarNames
  rw [Term.height] at hle
  omega

def hexadecimal : Environment := { tracing with radix := .hexadecimal, group := 4 }

/-- Of two sessions with a trace, the output of one does not matter, and neither can write out the
mound. -/
theorem answers_of_agrees_tracing : Reachable .standard tracing ∧ tracing.Agrees hexadecimal ∧
    (∀ lines, answers .standard tracing lines = answers .standard hexadecimal lines) ∧
      (runLine .standard tracing (moundBehindText 72)).1 = tooDeep := by
  have hs : Reachable .standard tracing := .start true Environment.defaultDepth
  have ha : tracing.Agrees hexadecimal := ⟨rfl, rfl, rfl, rfl, rfl⟩
  have h := Reachable.answers_of_agrees hs ha
  exact ⟨hs, ha, fun lines => (h.1 rfl lines).1, (h.2.2 _ not_isWritable_moundBehind rfl).1⟩

/-- With the trace, the sum is too deep, and without, its first operand is unknown. -/
theorem trace_changes_answer : Reachable .standard tracing ∧ Reachable .standard .fresh ∧
    tracing.Agrees .fresh ∧ (runLine .standard tracing (moundBehindText 72)).1 = tooDeep ∧
      (runLine .standard .fresh (moundBehindText 72)).1 =
        .error (.failure (.eval (.name (.unknown "x")))) :=
  ⟨.start true _, .start false _, agrees_tracing, (runLine_high rfl not_isWritable_moundBehind).1,
    runLine_sum rfl rfl (tokenize_moundBehind kind_x 72) (parse_moundBehind kind_x (by decide))⟩

end UnitCalculator
