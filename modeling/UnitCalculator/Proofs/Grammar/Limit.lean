import UnitCalculator.Proofs.Grammar.Completeness

/-!
A higher limit takes nothing back. A line that is read, or refused for what it says, comes to the same
under every higher limit; only a line that is nested too deeply can come to something else.
-/

set_option autoImplicit false

namespace UnitCalculator.Grammar

open Reader

variable {α β : Type} {names : Names} {limit : Int}

theorem error_congr {e e' : ParseError} (h : (.error e : Except ParseError α) = .error e') :
    (.error e : Except ParseError β) = .error e' := congrArg _ (Except.error.inj h)

/-- The reader never lacks a level, as it goes in none. -/
def Shallow (p : Reader α) : Prop := ∀ c l, result p c ≠ .error (.tooDeep l)

namespace Shallow

theorem pure (a : α) : Shallow (Pure.pure a) := nofun

theorem fail {e : ParseError} (h : ∀ l, e ≠ .tooDeep l) : Shallow (fail e : Reader α) := by
  intro c l he
  exact h l (Except.error.inj he)

theorem bind {p : Reader α} {f : α → Reader β} (hp : Shallow p) (hf : ∀ a, Shallow (f a)) :
    Shallow (p >>= f) := by
  intro c l
  rw [result_bind]
  cases h : result p c with
  | error e => exact fun he => hp c l (h.trans (error_congr he))
  | ok r => exact hf r.1 r.2 l

theorem visit (r : Rule) : Shallow (visit r) := nofun

theorem skip (n : Nat) : Shallow (skip n) := nofun

theorem peek : Shallow peek := nofun

theorem remaining : Shallow remaining := nofun

theorem take (f : Token → Option α) : Shallow (take? f) := by
  intro c l
  rw [result_take?]
  split
  · exact nofun
  · split
    · exact nofun
    · exact nofun

theorem accepts (o : Operator) : Shallow (accepts o) := (take _).bind fun _ => pure _

theorem expect (o : Operator) (e : Expected) : Shallow (expect o e) := by
  intro c l
  rw [result_expect]
  split
  · exact nofun
  · exact nofun

theorem commandArguments (s : String) : Shallow (commandArguments s) := by
  refine (expect _ _).bind fun _ c l => ?_
  cases h : beforeClose c.rest with
  | none => simp [result, h]
  | some p => simp [result, h]

end Shallow

/-- The reader `p` lacks levels, or it has levels enough and reads as `q` does. -/
def Curbed (limit : Int) (p q : Reader α) : Prop :=
  ∀ c, result p c = .error (.tooDeep limit) ∨
    result p c = result q c ∧ ∀ l, result p c ≠ .error (.tooDeep l)

namespace Curbed

theorem refl {p : Reader α} (h : Shallow p) : Curbed limit p p := fun c => .inr ⟨rfl, h c⟩

theorem bind {p q : Reader α} {f g : α → Reader β} (hp : Curbed limit p q)
    (hf : ∀ a, Curbed limit (f a) (g a)) : Curbed limit (p >>= f) (q >>= g) := by
  intro c
  rw [result_bind, result_bind]
  obtain h | ⟨h, hl⟩ := hp c
  · rw [h]
    exact .inl rfl
  · rw [← h]
    cases hr : result p c with
    | error e => exact .inr ⟨rfl, fun l he => hl l (hr.trans (error_congr he))⟩
    | ok r => exact hf r.1 r.2

theorem after {p : Reader α} {f g : α → Reader β} (hp : Shallow p)
    (hf : ∀ a, Curbed limit (f a) (g a)) : Curbed limit (p >>= f) (p >>= g) := (refl hp).bind hf

theorem before {p q : Reader α} {f : α → Reader β} (hp : Curbed limit p q)
    (hf : ∀ a, Shallow (f a)) : Curbed limit (p >>= f) (q >>= f) := hp.bind fun a => refl (hf a)

theorem ite {b : Bool} {p p' q q' : Reader α} (hp : Curbed limit p p') (hq : Curbed limit q q') :
    Curbed limit (if b then p else q) (if b then p' else q') := by
  cases b with
  | true => exact hp
  | false => exact hq

end Curbed

section

variable {i j : Inner} (h : ∀ e, Curbed limit (i e) (j e))

include h

/-! Units -/

theorem curbed_unit : Curbed limit (unit i) (unit j) := .after (.visit _) fun _ => h .unit

theorem curbed_unitAtom : Curbed limit (unitAtom i) (unitAtom j) := by
  refine .after (.take _) fun u => ?_
  cases u with
  | some u => exact .refl (.pure u)
  | none =>
    refine .after (.accepts _) fun b => .ite ?_ (.refl ?_)
    · exact (curbed_unit h).before fun u => (Shallow.expect _ _).bind fun _ => .pure u
    · refine Shallow.peek.bind fun t => ?_
      cases t with
      | none => exact .fail nofun
      | some t => exact .fail nofun

theorem curbed_unitTerm : Curbed limit (unitTerm i) (unitTerm j) := by
  refine (curbed_unitAtom h).before fun u => (Shallow.accepts _).bind fun b => ?_
  cases b with
  | true =>
    refine (Shallow.take _).bind fun n => ?_
    cases n with
    | some n => exact .pure _
    | none => exact Shallow.peek.bind fun t => .fail nofun
  | false => exact .pure u

theorem curbed_unitAfter (lhs : Term) : Curbed limit (unitAfter i lhs) (unitAfter j lhs) := by
  refine .after (.take _) fun o => ?_
  cases o with
  | none => exact .refl (.pure lhs)
  | some o => exact (h .unitTerm).bind fun rhs => h (.unitAfter (.binary o lhs rhs))

theorem curbed_bracketedUnit : Curbed limit (bracketedUnit i) (bracketedUnit j) := by
  refine .after (.accepts _) fun b => .ite ?_ (.refl (.pure _))
  exact (curbed_unit h).before fun u => (Shallow.expect _ _).bind fun _ => .pure _

/-! Numbers and names -/

theorem curbed_number (a : Number) : Curbed limit (number names i a) (number names j a) := by
  refine .after (.visit _) fun _ => .after (.skip _) fun _ => .after (.take _) fun s => ?_
  have hend (m : Option Unit) : Curbed limit
      (do return Term.number (literalValue a s m.isSome) (← bracketedUnit i))
      (do return Term.number (literalValue a s m.isSome) (← bracketedUnit j)) :=
    (curbed_bracketedUnit h).before fun u => .pure _
  cases s with
  | none => exact .after (.take _) hend
  | some s =>
    cases s with
    | scaled f => exact .after (.take _) hend
    | imaginary f => exact .after (.pure none) hend

theorem curbed_expr : Curbed limit (expr i) (expr j) := .after (.visit _) fun _ => h .sum

theorem curbed_moreArguments (n : Nat) :
    Curbed limit (moreArguments i n) (moreArguments j n) := by
  induction n with
  | zero => exact .refl (.pure [])
  | succ n ih =>
    refine .after (.accepts _) fun b => .ite ?_ (.refl (.pure []))
    exact (curbed_expr h).bind fun t => ih.before fun ts => .pure _

theorem curbed_arguments (f : String) : Curbed limit (arguments i f) (arguments j f) := by
  refine .after (.expect _ _) fun _ => .after (.accepts _) fun b => .ite (.refl (.pure [])) ?_
  refine (curbed_expr h).bind fun t => .after .remaining fun n => ?_
  exact (curbed_moreArguments h n).before fun ts => (Shallow.expect _ _).bind fun _ => .pure _

theorem curbed_named (s : String) : Curbed limit (named names i s) (named names j s) := by
  refine .after (.skip _) fun _ => .after (.visit _) fun _ => .ite (.refl (.pure _)) ?_
  refine .ite ((curbed_arguments h s).before fun ts => .pure _) (.ite (.refl ?_) ?_)
  · exact (Shallow.commandArguments s).bind fun ts => .pure _
  · exact .refl (.pure _)

theorem curbed_primary : Curbed limit (primary names i) (primary names j) := by
  refine .after (.visit _) fun _ => .after .peek fun t => ?_
  have hunexpected (u : Token) :
      Shallow (fun c => ⟨[], .error (.unexpected u c.position)⟩ : Reader Term) := nofun
  cases t with
  | none => exact .refl (.fail nofun)
  | some t =>
    cases t with
    | int n => exact curbed_number h _
    | float x => exact curbed_number h _
    | ident s => exact curbed_named h s
    | op o =>
      cases o with
      | openParen =>
        refine .after (.skip _) fun _ => (curbed_expr h).before fun t => ?_
        exact (Shallow.expect _ _).bind fun _ => .pure t
      | _ => exact .refl (hunexpected _)

/-! Operators -/

theorem curbed_power : Curbed limit (power names i) (power names j) := by
  refine .after (.visit _) fun _ => (curbed_primary h).bind fun base => ?_
  refine .after (.accepts _) fun b => .ite ?_ (.refl (.pure base))
  exact (h .unary).before fun t => .pure _

theorem curbed_unary : Curbed limit (unary names i) (unary names j) := by
  refine .after (.visit _) fun _ => .after (.take _) fun o => ?_
  cases o with
  | some o => exact (h .unary).before fun t => .pure _
  | none => exact curbed_power h

theorem curbed_productAfter (lhs : Term) :
    Curbed limit (productAfter i lhs) (productAfter j lhs) := by
  refine .after (.take _) fun o => ?_
  cases o with
  | none => exact .refl (.pure lhs)
  | some o => exact (h .unary).bind fun rhs => h (.productAfter (.binary o lhs rhs))

theorem curbed_product : Curbed limit (product names i) (product names j) :=
  .after (.visit _) fun _ => (curbed_unary h).bind fun t => curbed_productAfter h t

theorem curbed_sumAfter (lhs : Term) : Curbed limit (sumAfter i lhs) (sumAfter j lhs) := by
  refine .after (.take _) fun o => ?_
  cases o with
  | none => exact .refl (.pure lhs)
  | some o => exact (h .product).bind fun rhs => h (.sumAfter (.binary o lhs rhs))

theorem Curbed.level (e : Entry) : Curbed limit (level names i e) (level names j e) := by
  cases e with
  | sum => exact (curbed_product h).bind fun t => curbed_sumAfter h t
  | sumAfter lhs => exact curbed_sumAfter h lhs
  | product => exact curbed_product h
  | productAfter lhs => exact curbed_productAfter h lhs
  | unary => exact curbed_unary h
  | unit => exact (curbed_unitTerm h).bind fun u => curbed_unitAfter h u
  | unitTerm => exact curbed_unitTerm h
  | unitAfter lhs => exact curbed_unitAfter h lhs

theorem curbed_assign : Curbed limit (assign i) (assign j) := by
  refine .after (.visit _) fun _ => (curbed_expr h).bind fun lhs => ?_
  refine .after (.accepts _) fun b => .ite ?_ (.refl (.pure lhs))
  exact (curbed_expr h).before fun rhs => .pure _

end

theorem curbed_within (names : Names) (limit limit' : Int) {m n : Nat} (h : m ≤ n) (e : Entry) :
    Curbed limit (within names limit m e) (within names limit' n e) := by
  induction m generalizing n e with
  | zero => exact fun _ => .inl rfl
  | succ m ih =>
    obtain ⟨n, rfl⟩ : ∃ k, n = k + 1 := ⟨n - 1, by omega⟩
    exact Curbed.level (ih (by omega)) e

theorem curbed_line (names : Names) {limit limit' : Int} (h : limit ≤ limit') :
    Curbed limit (line names limit) (line names limit') := by
  rw [line_eq, line_eq]
  refine (curbed_assign (curbed_within names limit limit' (by omega))).before fun t c l => ?_
  cases hc : c.rest with
  | nil => simp [result, whole, hc]
  | cons u r => simp [result, whole, hc]

theorem parse_curbed (names : Names) {limit limit' : Int} (h : limit ≤ limit') (x : List Token) :
    parse names limit x = .error (.tooDeep limit) ∨
      parse names limit x = parse names limit' x ∧
        ∀ l, parse names limit x ≠ .error (.tooDeep l) := by
  have hparse (d : Int) : parse names d x = (result (line names d) ⟨0, x⟩).map (·.1) := rfl
  rw [hparse, hparse]
  obtain hd | ⟨hd, hl⟩ := curbed_line names h ⟨0, x⟩
  · exact .inl (by rw [hd]; rfl)
  · refine .inr ⟨by rw [hd], fun l he => ?_⟩
    cases hr : result (line names limit) ⟨0, x⟩ with
    | error e =>
      rw [hr] at he
      exact hl l (hr.trans (error_congr he))
    | ok r =>
      rw [hr] at he
      cases he

/-- Under a higher limit, a line that is read is read as the same term, and a line that is refused for
another reason than its nesting is refused for the same reason; and a line that is nested too deeply for
a limit is so for every lower one. -/
theorem parse_of_limit_le (names : Names) {limit limit' : Int} (h : limit ≤ limit')
    (x : List Token) :
    (∀ t, parse names limit x = .ok t → parse names limit' x = .ok t) ∧
      (∀ e, parse names limit x = .error e → (∀ l, e ≠ .tooDeep l) →
        parse names limit' x = .error e) ∧
      ∀ l, parse names limit' x = .error (.tooDeep l) →
        parse names limit x = .error (.tooDeep limit) := by
  obtain hd | ⟨hd, hl⟩ := parse_curbed names h x
  · rw [hd]
    refine ⟨nofun, fun e he hne => ?_, fun _ _ => rfl⟩
    exact absurd (Except.error.inj he).symm (hne limit)
  · rw [← hd]
    exact ⟨fun _ ht => ht, fun _ he _ => he, fun l he => absurd he (hl l)⟩

theorem parse_of_limit_le_parentheses : (2 : Int) ≤ 3 ∧
    parse ⟨fun _ => false, fun _ => false, fun _ => false⟩ 3
      [.op .openParen, .int 1, .op .closeParen] = .ok (.int 1) ∧
    parse ⟨fun _ => false, fun _ => false, fun _ => false⟩ 3 [.op .openParen, .int 1] =
      .error (.notFound .closeParen none 2) ∧
    parse ⟨fun _ => false, fun _ => false, fun _ => false⟩ 2
      [.op .openParen, .op .openParen, .op .openParen, .int 1] = .error (.tooDeep 2) := by
  have hle : (2 : Int) ≤ 3 := by decide
  refine ⟨hle, ?_, ?_, ?_⟩
  · exact (parse_of_limit_le _ hle _).1 _ rfl
  · exact (parse_of_limit_le _ hle _).2.1 _ rfl nofun
  · exact (parse_of_limit_le _ hle _).2.2 3 rfl

end UnitCalculator.Grammar
