import UnitCalculator.Session.Command

/-!
What commands leave alone. They change settings and declare variables and do nothing else, so what
outlasts these two outlasts every command, also one that is refused half-way.
-/

set_option autoImplicit false

namespace UnitCalculator.Command

structure Respected (P : Environment → Prop) : Prop where
  settings {env : Environment} (debug : Bool) (radix : Radix) (group : Nat) :
    P env → P { env with debug, radix, group }
  declare {env env' : Environment} {s : String} :
    P env → env.declare s = .ok env' → P env'

namespace Respected

variable {P : Environment → Prop} {env : Environment} (hP : Respected P) (h : P env)

include hP h

theorem outputSettings (ts : List Token) : P (outputSettings env ts).1 := by
  induction ts generalizing env with
  | nil => exact h
  | cons t ts ih =>
    rw [Command.outputSettings]
    split
    · next env' he =>
      refine ih ?_
      cases t with
      | ident s =>
        obtain ⟨x, -, rfl⟩ := Option.map_eq_some_iff.1 he
        exact hP.settings _ _ _ h
      | int n =>
        rw [outputSetting] at he
        split at he
        · cases he
          exact hP.settings _ _ _ h
        · cases he
      | _ => cases he
    · exact h

theorem setOutput (ts : List Token) : P (setOutput env ts).1 := by
  unfold Command.setOutput
  split
  · exact hP.settings _ _ _ h
  · exact hP.outputSettings h ts

theorem setDebug (ts : List Token) : P (setDebug env ts).1 := by
  unfold Command.setDebug
  split
  · exact hP.settings _ _ _ h
  · split
    · exact hP.settings _ _ _ h
    · exact h
  · exact h

theorem declareAll (ts : List Token) : P (declareAll env ts).1 := by
  induction ts generalizing env with
  | nil => exact h
  | cons t ts ih =>
    unfold Command.declareAll
    split
    · next hs => cases hs
    · next s us hs =>
      split
      · next env' he =>
        cases hs
        exact ih (hP.declare h he)
      · exact h
    · exact h

end Respected

end UnitCalculator.Command
