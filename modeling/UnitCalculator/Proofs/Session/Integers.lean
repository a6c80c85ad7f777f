import UnitCalculator.Proofs.Arithmetic.Range
import UnitCalculator.Proofs.Session.Execution

/-!
Integers are exact or refused. A tree of integers under signs and the operators that keep integers
has the value that it has without any bound, or an error: the value exists and no subtree leaves the
range of 128 bits exactly where there is a result.
-/

set_option autoImplicit false

namespace UnitCalculator

open Whole

/-! What integers come to without a bound -/

/-- The operators that are exact on integers. Division is toward zero, and a remainder has the sign
of the dividend. -/
def Operator.onIntegers (a b : Int) : Operator → Option Int
  | .plus => some (a + b)
  | .minus => some (a - b)
  | .times => some (a * b)
  | .slash => if b = 0 then none else some (a.tdiv b)
  | .percent => if b = 0 then none else some (a.tmod b)
  | .caret => if b < 0 then none else some (a ^ b.toNat)
  | _ => none

def Operator.isIntegral (o : Operator) : Bool :=
  o = .plus || o = .minus || o = .times || o = .slash || o = .percent || o = .caret

namespace Term

def exact : Term → Option Int
  | .number (.int n) .absent => some n
  | .signed .plus t => t.exact
  | .signed .minus t => t.exact.map fun n => -n
  | .binary o l r => l.exact.bind fun a => r.exact.bind fun b => o.onIntegers a b
  | _ => none

inductive Integral : Term → Prop where
  | literal {n : Int} : InRange n → Integral (.int n)
  | signed {o : Operator} {t : Term} : o = .plus ∨ o = .minus → Integral t → Integral (.signed o t)
  | binary {o : Operator} {l r : Term} :
      o.isIntegral = true → Integral l → Integral r → Integral (.binary o l r)

/-- Every subtree has a value in range. -/
def Fits (t : Term) : Prop := ∀ s, Part s t → ∃ n, s.exact = some n ∧ InRange n

/-- No exponent that fits is below zero. -/
def NaturalExponents (t : Term) : Prop :=
  ∀ l r n, Part (.binary .caret l r) t → r.Fits → r.exact = some n → 0 ≤ n

theorem Integral.short {t : Term} (h : t.Integral) : t.Short := by
  induction h with
  | literal h => exact .number (intObstacle_of_inRange h) .absent
  | signed _ _ ih => exact .signed ih
  | binary _ _ _ ihl ihr => exact .binary ihl ihr

theorem fits_int {n : Int} : (int n).Fits ↔ InRange n := by
  constructor
  · intro h
    obtain ⟨m, hm, hr⟩ := h _ .here
    cases hm
    exact hr
  · intro h s hs
    cases hs with
    | here => exact ⟨n, rfl, h⟩

theorem fits_signed {o : Operator} {t : Term} : (signed o t).Fits ↔
    t.Fits ∧ ∃ n, (signed o t).exact = some n ∧ InRange n := by
  constructor
  · intro h
    exact ⟨fun s hs => h s (.operand hs), h _ .here⟩
  · rintro ⟨ht, hn⟩ s hs
    cases hs with
    | here => exact hn
    | operand hs => exact ht s hs

theorem fits_binary {o : Operator} {l r : Term} : (binary o l r).Fits ↔
    l.Fits ∧ r.Fits ∧ ∃ n, (binary o l r).exact = some n ∧ InRange n := by
  constructor
  · intro h
    exact ⟨fun s hs => h s (.left hs), fun s hs => h s (.right hs), h _ .here⟩
  · rintro ⟨hl, hr, hn⟩ s hs
    cases hs with
    | here => exact hn
    | left hs => exact hl s hs
    | right hs => exact hr s hs

end Term

/-! Checked integers -/

def checkedValue : Option Int → Except Fault Number
  | none => .error .zeroDivisor
  | some n => Number.checkedInt n

namespace Number

theorem checkedInt_of_inRange {n : Int} (h : InRange n) : checkedInt n = .ok (int n) := by
  simp [checkedInt, checked, h]

theorem checkedInt_of_not {n : Int} (h : ¬InRange n) : checkedInt n = .error .overflow := by
  simp [checkedInt, checked, h]

theorem div_int (a b : Int) :
    (int a).div (int b) = checkedValue (Operator.slash.onIntegers a b) := by
  by_cases hb : b = 0
  · simp [Number.div, isZero, hb, checkedValue, Operator.onIntegers]
  · simp [Number.div, isZero, hb, checkedValue, Operator.onIntegers, align]

theorem mod_int {a : Int} (ha : InRange a) (b : Int) :
    (int a).mod (int b) = checkedValue (Operator.percent.onIntegers a b) := by
  by_cases hb : b = 0
  · simp [Number.mod, hb, checkedValue, Operator.onIntegers]
  · simp [Number.mod, hb, checkedValue, Operator.onIntegers,
      checkedInt_of_inRange (inRange_tmod ha b)]

theorem pow_int (a : Int) {b : Int} (hb : 0 ≤ b) :
    (int a).pow (int b) = checkedValue (Operator.caret.onIntegers a b) := by
  obtain ⟨n, rfl⟩ := Int.eq_ofNat_of_zero_le hb
  have hn : ¬(n : Int) < 0 := by omega
  simp only [Number.pow, align, Operator.onIntegers, if_neg hn, checkedValue, checkedInt,
    Int.toNat_natCast]
  rw [pow?_eq]

end Number

namespace Evaluate

open Run

def plain (n : Int) : Quantity := ⟨.int n, none⟩

theorem short_plain {n : Int} (h : InRange n) : (plain n).toTerm.Short :=
  Quantity.short_toTerm_iff.2 ⟨intObstacle_of_inRange h, rfl⟩

section Host

variable [Host]

theorem canonical_absent (a : Number) (env : Environment) :
    (canonical a .absent).Ends env (.ok ⟨a, none⟩) env :=
  fun tr => ⟨tr, rfl⟩

theorem uniform_plain (o : Operator) (f : Number → Number → Except Fault Number) (a b : Int)
    (env : Environment) : (uniform o f (plain a) (plain b)).Ends env
      (stopped ((f (.int a) (.int b)).map fun v => ⟨v, none⟩)) env :=
  Ends.bind (.pure none env) (.orFault_bind fun _ => .pure _ env)

theorem combine_plain {o : Operator} (ho : o.isIntegral = true) {a b : Int} (ha : InRange a)
    (hb : o = .caret → 0 ≤ b) (env : Environment) :
    (combine o (plain a) (plain b)).Ends env
      (stopped ((checkedValue (o.onIntegers a b)).map fun v => ⟨v, none⟩)) env := by
  cases o with
  | plus => exact uniform_plain .plus Number.add a b env
  | minus => exact uniform_plain .minus Number.sub a b env
  | times => exact .orFault_bind fun v => canonical_absent v env
  | slash =>
    rw [← Number.div_int]
    exact .orFault_bind fun v => canonical_absent v env
  | percent =>
    rw [← Number.mod_int ha]
    exact uniform_plain .percent Number.mod a b env
  | caret =>
    rw [← Number.pow_int a (hb rfl)]
    exact .orFault_bind fun _ => .pure _ env
  | _ => simp [Operator.isIntegral] at ho

theorem checkHeight_of_le {t : Term} (h : t.height ≤ Host.evaluation) (env : Environment) :
    (checkHeight t).Ends env (.ok ()) env := by
  have hh : ¬Host.evaluation < t.height := by omega
  rw [checkHeight, if_neg hh]
  exact .pure () env

theorem note_evaluation {t : Term} {env : Environment}
    (h : env.debug = true → t.obstacle Host.writing = none) :
    (note (.evaluation t)).Ends env (.ok ()) env :=
  .note fun hd => Remark.obstacle_eq_none_iff.2 (List.forall_mem_singleton.2 (h hd))

theorem note_evaluation_unwritten {t : Term} {env : Environment} (hd : env.debug = true)
    {o : Obstacle} (h : t.obstacle Host.writing = some o) :
    (note (.evaluation t)).Ends env (.error (.failure o.failure)) env :=
  .note_unwritten hd (by rw [Remark.obstacle, Remark.terms, List.findSome?_cons, h])

theorem note_operation (o : Operator) {p q : Quantity} (hp : p.toTerm.Short) (hq : q.toTerm.Short)
    (env : Environment) : (note (.operation o p q)).Ends env (.ok ()) env := by
  have hpos := Host.writing_ge
  have hwritten (q : Quantity) (h : q.toTerm.Short) : q.toTerm.obstacle Host.writing = none :=
    Term.obstacle_eq_none_iff.2 ⟨by rw [q.height_toTerm]; omega, h⟩
  exact .note fun _ => Remark.obstacle_eq_none_iff.2
    (List.forall_mem_cons.2 ⟨hwritten p hp, List.forall_mem_singleton.2 (hwritten q hq)⟩)

theorem sign_plain {o : Operator} (ho : o = .plus ∨ o = .minus) (t : Term) {a : Int}
    (ha : InRange a) (ht : t.exact = some a) (env : Environment) :
    (sign o (some (plain a))).Ends env
      (stopped ((checkedValue (Term.signed o t).exact).map fun v => ⟨v, none⟩)) env := by
  obtain rfl | rfl := ho
  · rw [Term.exact, ht, checkedValue, Number.checkedInt_of_inRange ha]
    exact .pure (plain a) env
  · rw [Term.exact, ht]
    exact .orFault_bind fun _ => .pure _ env

theorem binary_plain {o : Operator} (ho : o.isIntegral = true) {a b : Int} (ha : InRange a)
    (hb : InRange b) (hnat : o = .caret → 0 ≤ b) (env : Environment) :
    (binary o (some (plain a)) (some (plain b))).Ends env
      (stopped ((checkedValue (o.onIntegers a b)).map fun v => ⟨v, none⟩)) env := by
  have hc := combine_plain ho ha hnat env
  unfold binary
  simp only [operand, pure_bind]
  split
  · exact (note_operation o (short_plain ha) (short_plain hb) env).bind hc
  · exact hc

end Host

end Evaluate

/-! Trees of integers -/

open Evaluate Run

/-- A tree of integers comes to its value, or there is a fault because the tree does not fit. -/
inductive Settled (t : Term) : Except Stop Value → Prop where
  | value {n : Int} : t.Fits → t.exact = some n → Settled t (.ok (some (plain n)))
  | fault {f : Fault} : ¬t.Fits → Settled t (.error (.failure (.eval (.arithmetic f))))

theorem settled_checked {t : Term} (h : t.Fits ↔ ∃ n, t.exact = some n ∧ InRange n) :
    Settled t (stopped (((checkedValue t.exact).map fun v => ⟨v, none⟩).map some)) := by
  cases ht : t.exact with
  | none =>
    have hf : ¬t.Fits := by simp [h, ht]
    exact .fault hf
  | some n =>
    by_cases hn : InRange n
    · rw [checkedValue, Number.checkedInt_of_inRange hn]
      exact .value (h.2 ⟨n, ht, hn⟩) ht
    · rw [checkedValue, Number.checkedInt_of_not hn]
      have hf : ¬t.Fits := by simp [h, ht, hn]
      exact .fault hf

theorem Term.Fits.inRange {t : Term} (h : t.Fits) {n : Int} (ht : t.exact = some n) :
    InRange n := by
  obtain ⟨m, hm, hr⟩ := h t .here
  rw [ht] at hm
  cases hm
  exact hr

theorem Term.NaturalExponents.part {s t : Term} (h : t.NaturalExponents)
    (hs : ∀ u, Part u s → Part u t) : s.NaturalExponents :=
  fun l r n hp hf hn => h l r n (hs _ hp) hf hn

section Host

variable [Host]

theorem note_integral {t : Term} (h : t.Integral) {env : Environment}
    (hw : env.debug = true → t.height ≤ Host.writing) :
    (note (.evaluation t)).Ends env (.ok ()) env :=
  note_evaluation fun hd => Term.obstacle_eq_none_iff.2 ⟨hw hd, h.short⟩

theorem integral_settles {t : Term} (h : t.Integral) (he : t.NaturalExponents) {n : Nat}
    (hn : t.height ≤ n) {env : Environment} (hw : env.debug = true → t.height ≤ Host.writing) :
    ∃ r, (evaluateWithin n t).Ends env r env ∧ Settled t r := by
  induction h generalizing n with
  | @literal a ha =>
    have hnote := note_integral (.literal ha) hw
    rw [Term.int, Term.height] at hn
    obtain ⟨n, rfl⟩ : ∃ k, n = k + 1 := ⟨n - 1, by omega⟩
    refine ⟨.ok (some (plain a)), ?_, .value ?_ rfl⟩
    · rw [Term.int, evaluateWithin_number]
      have hu : Term.absent.height ≤ Host.evaluation :=
        (by decide : 1 ≤ 100).trans Host.evaluation_ge
      exact hnote.bind ((checkHeight_of_le hu env).bind
        ((canonical_absent _ env).bind (.pure _ env)))
    · exact Term.fits_int.2 ha
  | @signed o t ho ht ih =>
    have hnote := note_integral (.signed ho ht) hw
    rw [Term.height] at hn
    obtain ⟨n, rfl⟩ : ∃ k, n = k + 1 := ⟨n - 1, by omega⟩
    have hwt (hd : env.debug = true) : t.height ≤ Host.writing := by
      have hh := hw hd
      rw [Term.height] at hh
      omega
    obtain ⟨r, hr, hs⟩ := ih (he.part fun _ => .operand) (by omega : t.height ≤ n) hwt
    have hi := Term.fits_signed (o := o) (t := t)
    rw [evaluateWithin_signed]
    cases hs with
    | fault hf =>
      refine ⟨_, hnote.bind hr.bind_error, .fault ?_⟩
      exact fun h => hf (hi.1 h).1
    | @value a hf ha =>
      have hs := sign_plain ho t (hf.inRange ha) ha env
      refine ⟨_, hnote.bind (hr.bind (hs.bind_pure some)), ?_⟩
      exact settled_checked (hi.trans (and_iff_right hf))
  | @binary o l r ho hl hr ihl ihr =>
    have hnote := note_integral (.binary ho hl hr) hw
    rw [Term.height] at hn
    obtain ⟨n, rfl⟩ : ∃ k, n = k + 1 := ⟨n - 1, by omega⟩
    have hwl (hd : env.debug = true) : l.height ≤ Host.writing := by
      have hh := hw hd
      rw [Term.height] at hh
      omega
    have hwr (hd : env.debug = true) : r.height ≤ Host.writing := by
      have hh := hw hd
      rw [Term.height] at hh
      omega
    obtain ⟨rl, hrl, hsl⟩ := ihl (he.part fun _ => .left) (by omega : l.height ≤ n) hwl
    obtain ⟨rr, hrr, hsr⟩ := ihr (he.part fun _ => .right) (by omega : r.height ≤ n) hwr
    have hi := Term.fits_binary (o := o) (l := l) (r := r)
    have ho' : o ≠ .equals := by
      intro h
      rw [h] at ho
      cases ho
    rw [evaluateWithin_binary n ho']
    cases hsl with
    | fault hf =>
      refine ⟨_, hnote.bind hrl.bind_error, .fault ?_⟩
      exact fun h => hf (hi.1 h).1
    | @value a hfa ha =>
      cases hsr with
      | fault hf =>
        refine ⟨_, hnote.bind (hrl.bind hrr.bind_error), .fault ?_⟩
        exact fun h => hf (hi.1 h).2.1
      | @value b hfb hb =>
        have hnat : o = .caret → 0 ≤ b := by
          intro h
          subst h
          exact he l r b .here hfb hb
        have hs := binary_plain ho (hfa.inRange ha) (hfb.inRange hb) hnat env
        refine ⟨_, hnote.bind (hrl.bind (hrr.bind (hs.bind_pure some))), ?_⟩
        have hv : (Term.binary o l r).exact = o.onIntegers a b := by
          rw [Term.exact, ha, hb]
          rfl
        rw [← hv]
        exact settled_checked (hi.trans ((and_iff_right hfa).trans (and_iff_right hfb)))

/-- A tree of integers without negative exponents that is within the limits of the host has its value
without a bound as its result if every subtree has a value in range. In every other case the
evaluation fails. -/
theorem evaluate_integral {t : Term} (h : t.Integral) (he : t.NaturalExponents)
    (hl : t.height ≤ Host.evaluation) {m : Machine}
    (hw : m.env.debug = true → t.height ≤ Host.writing) :
    (∀ n, ((evaluate t).run.run m).1 = .ok (some ⟨.int n, none⟩) ↔ t.exact = some n ∧ t.Fits) ∧
      (¬t.Fits → ∃ f, ((evaluate t).run.run m).1 = .error (.failure (.eval (.arithmetic f)))) ∧
      ((evaluate t).run.run m).2.env = m.env := by
  obtain ⟨r, hr, hs⟩ := integral_settles h he hl hw
  obtain ⟨tr, hm⟩ := hr m.trace
  change (evaluate t).run.run m = _ at hm
  rw [hm]
  cases hs with
  | @value a hf ha =>
    refine ⟨fun n => ?_, fun hn => absurd hf hn, rfl⟩
    rw [ha]
    constructor
    · intro h
      cases h
      exact ⟨rfl, hf⟩
    · intro h
      cases h.1
      rfl
  | @fault f hf =>
    refine ⟨fun n => ?_, fun _ => ⟨f, rfl⟩, rfl⟩
    constructor
    · intro h
      cases h
    · intro h
      exact absurd h.2 hf

end Host

/-- The least integer by minus one: the quotient is out of range, the remainder is not. -/
def leastBy (o : Operator) : Term :=
  .binary o (.binary .minus (.signed .minus (.int greatest)) (.int 1)) (.signed .minus (.int 1))

theorem leastBy_integral {o : Operator} (ho : o.isIntegral = true) : (leastBy o).Integral := by
  have h₁ : (Term.int 1).Integral := .literal (by decide)
  have h₂ : (Term.int greatest).Integral := .literal (by decide)
  have hm : Operator.minus = .plus ∨ Operator.minus = .minus := .inr rfl
  exact .binary ho (.binary rfl (.signed hm h₂) h₁) (.signed hm h₁)

theorem leastBy_naturalExponents {o : Operator} (ho : o ≠ .caret) :
    (leastBy o).NaturalExponents := by
  intro l r n hp _
  rw [leastBy, Term.int, Term.int] at hp
  cases hp with
  | here => exact absurd rfl ho
  | left hp =>
    cases hp with
    | left hp =>
      cases hp with
      | operand hp => cases hp
    | right hp => cases hp
  | right hp =>
    cases hp with
    | operand hp => cases hp

theorem leastBy_percent_fits : (leastBy .percent).Fits := by
  have h₁ : InRange greatest := by decide
  have h₂ : InRange (-greatest) := by decide
  have h₃ : InRange (-greatest - 1) := by decide
  have h₄ : InRange 1 := by decide
  have h₅ : InRange (-1) := by decide
  have h₆ : (leastBy .percent).exact = some 0 := by decide
  have h₇ : InRange 0 := by decide
  exact Term.fits_binary.2 ⟨Term.fits_binary.2 ⟨Term.fits_signed.2 ⟨Term.fits_int.2 h₁, _, rfl, h₂⟩,
    Term.fits_int.2 h₄, _, rfl, h₃⟩, Term.fits_signed.2 ⟨Term.fits_int.2 h₄, _, rfl, h₅⟩, _, h₆, h₇⟩

theorem leastBy_slash_not_fits : ¬(leastBy .slash).Fits := by
  intro h
  have hv : (leastBy .slash).exact = some (-least) := by decide
  exact absurd (h.inRange hv) (by decide)

theorem evaluate_leastBy :
    (∃ f, ((evaluate (leastBy .slash)).run.run (.start .fresh)).1 =
        .error (.failure (.eval (.arithmetic f)))) ∧
      ((evaluate (leastBy .percent)).run.run (.start .fresh)).1 = .ok (some ⟨.int 0, none⟩) := by
  have hw (o : Operator) (hd : (Machine.start .fresh).env.debug = true) :
      (leastBy o).height ≤ Host.writing := by cases hd
  constructor
  · have hn : (leastBy .slash).NaturalExponents := leastBy_naturalExponents (by decide)
    exact (evaluate_integral (leastBy_integral rfl) hn (by decide) (hw _)).2.1 leastBy_slash_not_fits
  · have hn : (leastBy .percent).NaturalExponents := leastBy_naturalExponents (by decide)
    have hv : (leastBy .percent).exact = some 0 := by decide
    exact ((evaluate_integral (leastBy_integral rfl) hn (by decide) (hw _)).1 0).2
      ⟨hv, leastBy_percent_fits⟩

end UnitCalculator
