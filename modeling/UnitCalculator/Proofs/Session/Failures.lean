import UnitCalculator.Proofs.Lexeme.Literal
import UnitCalculator.Proofs.Session.Outcomes

/-!
Failures that text cannot lead to. The program guards against terms, units and operators that its
own grammar never makes; no line of a session runs into one of these guards.
-/

set_option autoImplicit false

namespace UnitCalculator

/-- How the messages of the guards begin. -/
def guardTexts : List String :=
  ["Malformed unit expression", "Malformed unit exponent", "Unit expansion does not terminate",
   "Unit without a value", "Cannot evaluate", "Unknown operator", "Unknown unary operator",
   "Unknown function", "Unknown command"]

def IsGuardMessage (message : String) : Prop := ∃ p ∈ guardTexts, ∃ r, message = p ++ r

/-- How the messages of all other failures begin. -/
def ordinaryTexts : List String :=
  ["Integer format: invalid digit for radix ",
   "Integer format: number too large to fit in 128 bits: ",
   "Float format: missing exponent digits: ", "Float format: ", "Unexpected end of input",
   "Unexpected end of input in unit", "Unexpected token: ", "Unexpected token in unit: ",
   "Unexpected token left: ", "')' not found", "']' not found", "')' not found in unit",
   "function ", "command ", "Unit exponent must be an integer: got ",
   "Expression nested too deeply (limit ", "Cannot declare constant ",
   "Attempting to assign to constant ", "Attempting to assign to undeclared variable ", "Variable ",
   "Unknown identifier ", "output_format: unknown argument ", "debug: unknown argument ",
   "debug: takes at most one argument", "var: not a name: ",
   "Integer overflow: result does not fit in 128 bits", "Division by zero",
   "Arithmetic error in pow", "Unit exponent too large: ", "float division by zero", "Operand of ",
   "Incompatible units for ", "Exponent must be dimensionless: ", "Unit UnitFraction(numerator=",
   "Can only assign to a variable, not ", "Function ", "Error calling ",
   "Expression nested too deeply", "Exceeds the limit ("]

def IsOrdinary (message : String) : Prop := ∃ h ∈ ordinaryTexts, ∃ r, message = h ++ r

def differ : List Char → List Char → Bool
  | c :: s, d :: t => c ≠ d || differ s t
  | _, _ => false

theorem append_ne_of_differ {s t : List Char} (h : differ s t = true) (u v : List Char) :
    s ++ u ≠ t ++ v := by
  induction s generalizing t with
  | nil => cases h
  | cons c s ih =>
    cases t with
    | nil => cases h
    | cons d t =>
      rw [differ, Bool.or_eq_true, decide_eq_true_eq] at h
      intro he
      obtain ⟨hc, he⟩ := List.cons.inj he
      exact ih (h.resolve_left (not_not_intro hc)) he

theorem ordinaryTexts_differ :
    (ordinaryTexts.all fun h => guardTexts.all fun p => differ h.toList p.toList) = true := by
  decide +kernel

namespace IsOrdinary

variable {m : String}

theorem text (s : String) (h : s ∈ ordinaryTexts) : IsOrdinary s :=
  ⟨s, h, "", String.append_empty.symm⟩

theorem append (h : IsOrdinary m) (r : String) : IsOrdinary (m ++ r) := by
  obtain ⟨s, hs, u, rfl⟩ := h
  exact ⟨s, hs, u ++ r, String.append_assoc⟩

theorem not_guard (h : IsOrdinary m) : ¬IsGuardMessage m := by
  obtain ⟨s, hs, u, rfl⟩ := h
  rintro ⟨p, hp, v, he⟩
  have hd := List.all_eq_true.1 (List.all_eq_true.1 ordinaryTexts_differ s hs) p hp
  refine append_ne_of_differ hd u.toList v.toList ?_
  rw [← String.toList_append, he, String.toList_append]

end IsOrdinary

theorem LexError.isOrdinary (e : LexError) : IsOrdinary e.message := by
  obtain ⟨f, x⟩ := e
  cases f with
  | invalidDigit n => exact .append (.append (.append (.text _ (by simp [ordinaryTexts])) _) _) _
  | _ => exact .append (.text _ (by simp [ordinaryTexts])) _

theorem Expected.isOrdinary (e : Expected) : IsOrdinary e.message := by
  cases e with
  | functionOpen f | functionClose f | commandOpen c =>
    exact .append (.append (.text _ (by simp [ordinaryTexts])) _) _
  | closeParen => exact .text "')' not found" (by simp [ordinaryTexts])
  | closeBracket => exact .text "']' not found" (by simp [ordinaryTexts])
  | closeUnitParen => exact .text "')' not found in unit" (by simp [ordinaryTexts])

theorem ParseError.isOrdinary (e : ParseError) : IsOrdinary e.message := by
  cases e with
  | endOfInput => exact .text "Unexpected end of input" (by simp [ordinaryTexts])
  | endOfUnit => exact .text "Unexpected end of input in unit" (by simp [ordinaryTexts])
  | notFound e t n => exact .append (.append (.append (.append e.isOrdinary _) _) _) _
  | unexpected t n | leftOver t n =>
    exact .append (.append (.append (.text _ (by simp [ordinaryTexts])) _) _) _
  | unclosedCommand c | tooDeep n => exact .append (.append (.text _ (by simp [ordinaryTexts])) _) _
  | unexpectedInUnit t | unitExponent t => exact .append (.text _ (by simp [ordinaryTexts])) _

theorem NameError.isOrdinary (e : NameError) : IsOrdinary e.message := by
  cases e with
  | declareConstant s | noValue s => exact .append (.append (.text _ (by simp [ordinaryTexts])) _) _
  | _ => exact .append (.text _ (by simp [ordinaryTexts])) _

theorem CommandError.isOrdinary (e : CommandError) : IsOrdinary e.message := by
  cases e with
  | debugArguments => exact .text "debug: takes at most one argument" (by simp [ordinaryTexts])
  | name e => exact e.isOrdinary
  | _ => exact .append (.text _ (by simp [ordinaryTexts])) _

theorem Fault.isOrdinary (f : Fault) : IsOrdinary f.message := by
  cases f with
  | overflow =>
    exact .text "Integer overflow: result does not fit in 128 bits" (by simp [ordinaryTexts])
  | zeroDivisor => exact .text "Division by zero" (by simp [ordinaryTexts])
  | power => exact .text "Arithmetic error in pow" (by simp [ordinaryTexts])

theorem EvalError.Possible.isOrdinary {e : EvalError} (h : e.Possible) : IsOrdinary e.message := by
  cases e with
  | unit e =>
    cases e with
    | exponentTooLarge n => exact .append (.text _ (by simp [ordinaryTexts])) _
    | scaleVanished => exact .text "float division by zero" (by simp [ordinaryTexts])
    | _ => cases h
  | name e => exact e.isOrdinary
  | command e => exact e.isOrdinary
  | arithmetic f => exact f.isOrdinary
  | tooDeep => exact .text "Expression nested too deeply" (by simp [ordinaryTexts])
  | exponentUnit u | notAssignable t | noFunctionValue f =>
    exact .append (.text _ (by simp [ordinaryTexts])) _
  | noValue s => exact .append (.append (.text _ (by simp [ordinaryTexts])) _) _
  | fractionalPower u a =>
    -- the texts of the unit and the word before it are one beginning
    have hb : "Unit " ++ "UnitFraction(numerator=" = "Unit UnitFraction(numerator=" := by simp
    have hs : u.spelled = "UnitFraction(numerator=" ++ pairsText u.numerator ++
        ", denominator=" ++ pairsText u.denominator ++ ")" := rfl
    have hu : IsOrdinary ("Unit " ++ u.spelled) := by
      simp only [hs, ← String.append_assoc, hb]
      exact .append (.append (.append (.append (.text _ (by simp [ordinaryTexts])) _) _) _) _
    exact .append (.append hu _) _
  | incompatibleUnits o u v =>
    have htext := IsOrdinary.text "Incompatible units for " (by simp [ordinaryTexts])
    exact .append (.append (.append (.append (.append htext _) _) _) _) _
  | arity f m n =>
    have htext := IsOrdinary.text "Function " (by simp [ordinaryTexts])
    exact .append (.append (.append (.append (.append (.append htext _) _) _) _) _) _
  | unknownOperator _ | unknownSign _ | unitWithoutValue _ | notEvaluable _ | unknownFunction _
  | unknownCommand _ => cases h

/-- In every environment that lines lead to, a line that fails has run into none of the guards: its
message begins with none of their texts, and no float is refused that was cut as one. -/
theorem guards_unreachable [Host] {k : Text.CharClasses} {env : Environment} (h : Reachable k env)
    {text : List Char} {f : Failure} (hf : (runLine k env text).1 = .error (.failure f)) :
    ¬IsGuardMessage f.message ∧ ∀ e, f = .lex e → e.fault ≠ .malformed := by
  have ho := h.outcome text
  rw [hf] at ho
  cases f with
  | lex e =>
    refine ⟨e.isOrdinary.not_guard, fun e' he => ?_⟩
    cases he
    exact tokenize_fault ho
  | parse e => exact ⟨e.isOrdinary.not_guard, nofun⟩
  | eval e =>
    obtain ⟨ts, t, -, -, he, -⟩ := ho
    exact ⟨he.isOrdinary.not_guard, nofun⟩
  | unwritten o =>
    obtain rfl := ho
    have htext := IsOrdinary.text "Exceeds the limit (" (by simp [ordinaryTexts])
    exact ⟨((htext.append _).append _).not_guard, nofun⟩

theorem runLine_unscaled : (runLine .standard .fresh ['1', 'e']).1 =
    .error (.failure (.lex ⟨.missingExponent, ['1', 'e']⟩)) := by
  have ht : tokenize .standard ['1', 'e'] = .error ⟨.missingExponent, ['1', 'e']⟩ := by
    rw [tokenize, lexemes_cons, tokensOf]
    rfl
  have he : (calculate .standard ['1', 'e']).Ends .fresh
      (.error (.failure (.lex ⟨.missingExponent, ['1', 'e']⟩))) .fresh := by
    refine Run.Ends.bind (.notes _ _) ?_
    rw [ht]
    exact .throw _ _
  exact he.result []

theorem guard_unreached_unscaled : Reachable .standard .fresh ∧
    ∃ f, (runLine .standard .fresh ['1', 'e']).1 = .error (.failure f) ∧
      ¬IsGuardMessage f.message :=
  have hs : Reachable .standard .fresh := .start false Environment.defaultDepth
  ⟨hs, _, runLine_unscaled, (guards_unreachable hs runLine_unscaled).1⟩

end UnitCalculator
