import UnitCalculator.Proofs.Session.Invariants
import UnitCalculator.Proofs.Session.Variables

/-!
The names of a session. The tables of the builtins stay as they are, constants and variables stay
apart, and what a variable has got, a place or a value, it never loses.
-/

set_option autoImplicit false

namespace UnitCalculator

theorem Radix.base_mem (r : Radix) : r.base ∈ [10, 16, 8, 2] := by
  cases r with
  | binary | octal | decimal | hexadecimal => decide

/-- The tables of names as a session keeps them, and the settings of the output. -/
structure Environment.InOrder (env : Environment) : Prop where
  constants : env.constants = fresh.constants
  functions : env.functions = fresh.functions
  commands : env.commands = fresh.commands
  apart (s : String) : ¬(env.isConstant s = true ∧ env.isVariable s = true)
  /-- A variable without a value has no term, one with a value has a number of the wide kinds. -/
  values (s : String) (t : Term) :
    (s, some t) ∈ env.bindings → ∃ a u, t = .number a u ∧ a.IsWide
  radix : env.radix.base ∈ [10, 16, 8, 2]
  group : 0 ≤ env.group

def Environment.hasValue (env : Environment) (s : String) : Bool :=
  (env.bindings.get? s).any Option.isSome

namespace Environment

theorem isConstant_of_assignable {env : Environment} {s : String}
    (h : env.checkAssignable s = .ok ()) : env.isConstant s = false := by
  unfold checkAssignable at h
  split at h
  · cases h
  · next hc => exact Bool.eq_false_iff.2 hc

/-- A place for a name that is no constant, and in it nothing or a number of the wide kinds. -/
theorem InOrder.set {env : Environment} (h : env.InOrder) {s : String} {v : Option Term}
    (hs : env.isConstant s = false) (hv : ∀ t, v = some t → ∃ a u, t = .number a u ∧ a.IsWide) :
    InOrder { env with bindings := env.bindings.set s v } := by
  refine ⟨h.constants, h.functions, h.commands, fun x hx => ?_, fun x t hx => ?_, h.radix, h.group⟩
  · obtain rfl | hvar := isVariable_set.1 hx.2
    · exact absurd hx.1 (Bool.eq_false_iff.1 hs)
    · exact h.apart x ⟨hx.1, hvar⟩
  · obtain hx | hx := Table.mem_set hx
    · exact hv t (Prod.mk.inj hx).2.symm
    · exact h.values x t hx

theorem inOrder_fresh (debug : Bool) (maxDepth : Int) :
    InOrder { fresh with debug, maxDepth } :=
  ⟨rfl, rfl, rfl, fun _ h => (nomatch h.2), fun _ _ h => (nomatch h), Radix.base_mem _,
    Nat.zero_le _⟩

end Environment

theorem lasting_inOrder : Lasting Environment.InOrder := by
  refine .of_set (fun debug radix group h => ?_) (fun h hc _ => h.set hc nofun)
    fun h ha hq => h.set (Environment.isConstant_of_assignable ha) fun t ht => ?_
  · exact ⟨h.constants, h.functions, h.commands, h.apart, h.values, radix.base_mem, Nat.zero_le _⟩
  · cases ht
    exact ⟨_, _, rfl, hq⟩

theorem lasting_hasValue (x : String) : Lasting fun env => env.hasValue x = true := by
  refine .of_set (fun _ _ _ h => h) (fun {env s} h _ hv => ?_) fun {env s q} h _ _ => ?_
  · have hx : x ≠ s := by
      rintro rfl
      unfold Environment.isVariable Table.has at hv
      unfold Environment.hasValue at h
      rw [Option.isSome_eq_false_iff, Option.isNone_iff_eq_none] at hv
      rw [hv] at h
      cases h
    unfold Environment.hasValue
    rw [Table.get?_set, if_neg hx]
    exact h
  · unfold Environment.hasValue
    rw [Table.get?_set]
    split
    · rfl
    · exact h

theorem Lasting.afterAll [Host] {P : Environment → Prop} (hP : Lasting P) {k : Text.CharClasses}
    {env : Environment} (hp : P env) (lines : List (List Char)) : P (env.afterAll k lines) := by
  induction lines generalizing env with
  | nil => exact hp
  | cons line lines ih => exact ih (hP.after k line hp)

/-- In every environment that lines lead to, whatever they came to, the names are in order; and
further lines take no variable away and leave none without the value it had. -/
theorem Reachable.names_last [Host] {k : Text.CharClasses} {env : Environment} (h : Reachable k env) :
    env.InOrder ∧ ∀ lines x,
      (env.isVariable x = true → (env.afterAll k lines).isVariable x = true) ∧
        (env.hasValue x = true → (env.afterAll k lines).hasValue x = true) := by
  refine ⟨?_, fun lines x => ⟨fun hx => (lasting_isVariable x).afterAll hx lines,
    fun hx => (lasting_hasValue x).afterAll hx lines⟩⟩
  induction h with
  | start debug maxDepth => exact Environment.inOrder_fresh debug maxDepth
  | line text _ ih => exact lasting_inOrder.after k text ih

theorem names_last_x : ∃ env, Reachable .standard env ∧ env.InOrder ∧ env.hasValue "x" = true ∧
    (env.afterAll .standard ["var(x)".toList]).hasValue "x" = true := by
  obtain ⟨-, h₁⟩ := runLine_declaration .fresh none (fun tr => ⟨tr, rfl⟩) rfl
  obtain ⟨-, h₂⟩ := runLine_assignment
  have hs : Reachable .standard (withX (some (Environment.real (Float.ofInt 1)))) := by
    rw [← h₂, ← h₁]
    exact .line _ (.line _ (.start false Environment.defaultDepth))
  obtain ⟨horder, hlast⟩ := Reachable.names_last hs
  exact ⟨_, hs, horder, rfl, (hlast _ "x").2 rfl⟩

end UnitCalculator
