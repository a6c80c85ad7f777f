import UnitCalculator.Proofs.Session.Operations

/-!
More levels change nothing but an error. An evaluation that is not too deep comes to the same with
any greater number of levels, and leaves the same environment.
-/

set_option autoImplicit false

namespace UnitCalculator

open Run Evaluate

variable {α β : Type}

def tooDeep : Except Stop α := .error (.failure (.eval .tooDeep))

/-- Unless it is too deep, `x` ends as `y` does. -/
def Approaches (x y : Run α) : Prop :=
  ∀ env, ∃ r env', x.Ends env r env' ∧ (r = tooDeep ∨ y.Ends env r env')

namespace Approaches

theorem refl {x : Run α} (h : Blind x) : Approaches x x := by
  intro env
  obtain ⟨r, env', he⟩ := h env
  exact ⟨r, env', he, .inr he⟩

theorem bind {x y : Run α} {f g : α → Run β} (hx : Approaches x y)
    (hf : ∀ a, Approaches (f a) (g a)) : Approaches (x >>= f) (y >>= g) := by
  intro env
  obtain ⟨r, env₁, he, h⟩ := hx env
  cases r with
  | error s =>
    refine ⟨_, env₁, he.bind_error, ?_⟩
    obtain h | h := h
    · cases h
      exact .inl rfl
    · exact .inr h.bind_error
  | ok a =>
    obtain h | h := h
    · cases h
    · obtain ⟨r, env₂, he', h'⟩ := hf a env₁
      exact ⟨r, env₂, he.bind he', h'.imp_right h.bind⟩

theorem after {x : Run α} {f g : α → Run β} (hx : Blind x) (hf : ∀ a, Approaches (f a) (g a)) :
    Approaches (x >>= f) (x >>= g) := (refl hx).bind hf

theorem before {x y : Run α} {f : α → Run β} (hx : Approaches x y) (hf : ∀ a, Blind (f a)) :
    Approaches (x >>= f) (y >>= f) := hx.bind fun a => refl (hf a)

theorem mapM {f g : α → Run β} (as : List α) (h : ∀ a ∈ as, Approaches (f a) (g a)) :
    Approaches (as.mapM f) (as.mapM g) := by
  induction as with
  | nil => exact refl (.pure [])
  | cons a as ih =>
    rw [List.mapM_cons, List.mapM_cons]
    have has := ih fun b hb => h b (List.mem_cons_of_mem a hb)
    exact (h a List.mem_cons_self).bind fun _ => has.before fun _ => .pure _

theorem trans {x y z : Run α} (hxy : Approaches x y) (hyz : Approaches y z) :
    Approaches x z := by
  intro env
  obtain ⟨r, env₁, hx, h⟩ := hxy env
  refine ⟨r, env₁, hx, ?_⟩
  obtain h | h := h
  · exact .inl h
  · obtain ⟨r', env₂, hy, h'⟩ := hyz env
    obtain ⟨rfl, rfl⟩ := h.unique hy
    exact h'

theorem blind {x y : Run α} (h : Approaches x y) : Blind x := by
  intro env
  obtain ⟨r, env', he, _⟩ := h env
  exact ⟨r, env', he⟩

theorem ends_ok {x y : Run α} (h : Approaches x y) {env env' : Environment} {a : α}
    (hx : x.Ends env (.ok a) env') : y.Ends env (.ok a) env' := by
  obtain ⟨r, env₁, he, hy⟩ := h env
  obtain ⟨rfl, rfl⟩ := hx.unique he
  obtain hy | hy := hy
  · cases hy
  · exact hy

end Approaches

/-! The parts that have no levels -/

variable [Host]

theorem blind_note (r : Remark) : Blind (note r) := .of_returns fun _ => .note r

theorem blind_afterEffect (e : Command.Effect) : Blind (afterEffect e) := by
  refine Blind.bind (fun env => ⟨_, _, .setEnvironment env e.1⟩) fun _ => ?_
  cases e.2 with
  | none => exact .pure ()
  | some c => exact fun env => ⟨_, _, .fail _ env⟩

theorem blind_command (s : String) (ts : List Token) : Blind (command s ts) := by
  refine Blind.bind (fun env => ⟨_, _, .environment env⟩) fun env => ?_
  split
  · exact fun env => ⟨_, _, .fail _ env⟩
  · exact blind_afterEffect _
  · exact blind_afterEffect _
  · exact blind_afterEffect _
  · exact fun env => ⟨_, _, .throw _ env⟩

theorem blind_store (s : String) (v : Value) : Blind (store s v) := by
  refine Blind.bind (.of_returns fun env => returns_operand env _ v) fun q => ?_
  refine Blind.bind (fun env => ⟨_, _, .environment env⟩) fun env => ?_
  refine Blind.bind (.of_returns fun _ => Returns.orNameError _) fun env' => ?_
  exact Blind.bind (fun env => ⟨_, _, .setEnvironment env env'⟩) fun _ => .pure _

theorem evaluateWithin_approaches_succ (n : Nat) (t : Term) :
    Approaches (evaluateWithin n t) (evaluateWithin (n + 1) t) := by
  induction n generalizing t with
  | zero => exact fun env => ⟨_, env, .fail _ env, .inl rfl⟩
  | succ n ih =>
    cases t with
    | absent => exact .after (blind_note _) fun _ => .refl fun env => ⟨_, _, .fail _ env⟩
    | empty => exact .after (blind_note _) fun _ => .refl (.pure none)
    | number a u =>
      rw [evaluateWithin_number, evaluateWithin_number]
      refine .refl (Blind.bind (blind_note _) fun _ => ?_)
      refine Blind.bind (.of_returns fun env => returns_checkHeight env u) fun _ => ?_
      exact Blind.bind (.of_returns fun env => returns_canonical env a u) fun _ => .pure _
    | signed o t =>
      rw [evaluateWithin_signed, evaluateWithin_signed]
      refine .after (blind_note _) fun _ => (ih t).before fun v => ?_
      exact Blind.bind (.of_returns fun env => returns_sign env o v) fun _ => .pure _
    | binary o l r =>
      by_cases ho : o = .equals
      · subst ho
        rw [evaluateWithin_equals, evaluateWithin_equals]
        refine .after (blind_note _) fun _ => ?_
        refine .after (.of_returns fun env => returns_target env l) fun s => ?_
        exact (ih r).before fun v => Blind.bind (blind_store s v) fun _ => .pure _
      · rw [evaluateWithin_binary _ ho, evaluateWithin_binary _ ho]
        refine .after (blind_note _) fun _ => (ih l).bind fun v => (ih r).before fun w => ?_
        exact Blind.bind (.of_returns fun env => returns_binary env o v w) fun _ => .pure _
    | name s =>
      rw [evaluateWithin_name, evaluateWithin_name]
      refine .after (blind_note _) fun _ => ?_
      refine .after (fun env => ⟨_, _, .environment env⟩) fun env => ?_
      exact .after (.of_returns fun _ => Returns.orNameError _) fun t => ih t
    | call s ts =>
      rw [evaluateWithin_call, evaluateWithin_call]
      refine .after (blind_note _) fun _ => ?_
      refine .after (.of_returns fun env => returns_function env s _) fun f => ?_
      refine Approaches.before (.mapM ts fun t _ => (ih t).before fun v => ?_) fun as => ?_
      · exact Blind.bind (.of_returns fun env => returns_operand env s v) fun _ => .pure _
      · exact Blind.bind (.of_returns fun env => returns_apply env s f as) fun _ => .pure _
    | command s ts =>
      rw [evaluateWithin_command, evaluateWithin_command]
      exact .refl (Blind.bind (blind_note _) fun _ => Blind.bind (blind_command s ts) fun _ =>
        .pure _)
    | bracketed t =>
      exact .after (blind_note _) fun _ => .refl fun env => ⟨_, _, .fail _ env⟩
    | fraction f => exact .after (blind_note _) fun _ => .refl fun env => ⟨_, _, .fail _ env⟩

theorem blind_evaluateWithin (n : Nat) (t : Term) : Blind (evaluateWithin n t) :=
  (evaluateWithin_approaches_succ n t).blind

theorem evaluateWithin_approaches {m n : Nat} (h : m ≤ n) (t : Term) :
    Approaches (evaluateWithin m t) (evaluateWithin n t) := by
  induction h with
  | refl => exact .refl (blind_evaluateWithin m t)
  | step _ ih => exact ih.trans (evaluateWithin_approaches_succ _ t)

end UnitCalculator
