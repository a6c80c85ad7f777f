import UnitCalculator.Proofs.Session.Execution

/-!
What the operations of a session return. All of them leave the environment as it is; only an
assignment and a command change it.
-/

set_option autoImplicit false

namespace UnitCalculator.Evaluate

open Run

variable [Host] (env : Environment)

theorem returns_checkHeight (t : Term) : Returns env (checkHeight t) fun _ => True := by
  unfold checkHeight
  split
  · exact .fail _
  · exact .pure trivial

theorem returns_canonical (a : Number) (u : Term) :
    Returns env (canonical a u) fun q => Units.canonicalize a u = .ok q := by
  have h : Returns env (orUnitError (Units.canonicalize a u)) _ := .orUnitError _
  unfold canonical
  split
  · exact h
  · exact (Returns.note _).bind fun _ _ => h

theorem returns_operand (s : String) (v : Value) :
    Returns env (operand s v) fun q => v = some q := by
  cases v with
  | none => exact .fail _
  | some q => exact .pure rfl

theorem returns_uniform (o : Operator) (f : Number → Number → Except Fault Number)
    (p q : Quantity) :
    Returns env (uniform o f p q) fun r => p.unit = q.unit ∧ r.unit = p.unit := by
  have h : Returns env (sameUnit o p q) fun u => p.unit = q.unit ∧ u = p.unit := by
    unfold sameUnit
    split
    · next hu => exact .pure ⟨hu, rfl⟩
    · exact .fail _
  refine h.bind fun u hu => (Returns.orFault _).bind fun a _ => .pure hu

theorem returns_multiply (p q : Quantity) : Returns env (multiply p q) fun r =>
    ∃ a, Units.canonicalize a (Units.multiply (unitTerm p.unit) (unitTerm q.unit)) = .ok r :=
  (Returns.orFault _).bind fun a _ => (returns_canonical env a _).weaken fun _ h => ⟨a, h⟩

theorem returns_divide (p q : Quantity) : Returns env (divide p q) fun r =>
    ∃ a, Units.canonicalize a (Units.divide (unitTerm p.unit) (unitTerm q.unit)) = .ok r :=
  (Returns.orFault _).bind fun a _ => (returns_canonical env a _).weaken fun _ h => ⟨a, h⟩

/-- What a power is: that of a plain number, or a whole power of a quantity. -/
def IsPower (p q r : Quantity) : Prop :=
  q.unit = none ∧ (p.unit = none ∧ r.unit = none ∨
    ∃ n a, q.value = .int n ∧
      Units.canonicalize a (Units.power (unitTerm p.unit) n) = .ok r)

theorem returns_power (p q : Quantity) : Returns env (power p q) (IsPower p q) := by
  unfold power
  split
  · exact .fail _
  · next hq =>
    refine (Returns.orFault _).bind fun a _ => ?_
    split
    · next hp => exact .pure ⟨hq, .inl ⟨hp, rfl⟩⟩
    · next u hp =>
      split
      · next n hn =>
        refine (returns_canonical env a _).weaken fun r h => ⟨hq, .inr ⟨n, a, hn, ?_⟩⟩
        rw [hp]
        exact h
      · exact .fail _

def isUniform (o : Operator) : Bool :=
  o = .plus || o = .minus || o = .percent || o = .parallel

/-- What an operator makes of two quantities, as far as their units go. -/
def IsCombined (p q r : Quantity) : Operator → Prop
  | .times => ∃ a, Units.canonicalize a (Units.multiply (unitTerm p.unit) (unitTerm q.unit)) = .ok r
  | .slash => ∃ a, Units.canonicalize a (Units.divide (unitTerm p.unit) (unitTerm q.unit)) = .ok r
  | .caret => IsPower p q r
  | o => isUniform o = true ∧ p.unit = q.unit ∧ r.unit = p.unit

theorem returns_combine (o : Operator) (p q : Quantity) :
    Returns env (combine o p q) fun r => IsCombined p q r o := by
  cases o with
  | plus => exact (returns_uniform env .plus Number.add p q).weaken fun _ h => ⟨rfl, h⟩
  | minus => exact (returns_uniform env .minus Number.sub p q).weaken fun _ h => ⟨rfl, h⟩
  | percent => exact (returns_uniform env .percent Number.mod p q).weaken fun _ h => ⟨rfl, h⟩
  | parallel =>
    exact (returns_uniform env .parallel Number.parallel p q).weaken fun _ h => ⟨rfl, h⟩
  | times => exact returns_multiply env p q
  | slash => exact returns_divide env p q
  | caret => exact returns_power env p q
  | _ => exact .fail _

theorem returns_binary (o : Operator) (l r : Value) : Returns env (binary o l r) fun x =>
    ∃ p q, l = some p ∧ r = some q ∧ IsCombined p q x o := by
  refine (returns_operand env _ l).bind fun p hp => (returns_operand env _ r).bind fun q hq => ?_
  have h := (returns_combine env o p q).weaken fun x hx =>
    (⟨p, q, hp, hq, hx⟩ : ∃ p q, l = some p ∧ r = some q ∧ IsCombined p q x o)
  split
  · exact (Returns.note _).bind fun _ _ => h
  · exact h

theorem returns_sign (o : Operator) (v : Value) :
    Returns env (sign o v) fun x => ∃ q, v = some q ∧ x.unit = q.unit := by
  refine (returns_operand env _ v).bind fun q hq => ?_
  split
  · exact .pure ⟨q, hq, rfl⟩
  · exact (Returns.orFault _).bind fun a _ => .pure ⟨q, hq, rfl⟩
  · exact .fail _

theorem returns_target (t : Term) : Returns env (target t) fun s =>
    t = .name s ∧ env.checkAssignable s = .ok () := by
  unfold target
  split
  · next s =>
    refine Returns.environment.bind fun e he => ?_
    subst he
    exact (Returns.orNameError _).bind fun _ h => .pure ⟨rfl, h⟩
  · exact .fail _

theorem returns_function (s : String) (n : Nat) :
    Returns env (function s n) fun f => env.functions.get? s = some f := by
  refine Returns.environment.bind fun e he => ?_
  subst he
  split
  · exact .fail _
  · next f hf =>
    split
    · split
      · exact .pure hf
      · exact .fail _
    · exact .pure hf

theorem returns_apply (s : String) (f : Function) (as : List Number) :
    Returns env (Evaluate.apply s f as) fun x => x.unit = none := by
  unfold Evaluate.apply
  split
  · exact .pure rfl
  · exact .fail _

end UnitCalculator.Evaluate
