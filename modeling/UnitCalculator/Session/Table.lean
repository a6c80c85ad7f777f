/-!
Tables from names to values, in the order in which the names came.
-/

set_option autoImplicit false

namespace UnitCalculator

abbrev Table (α : Type) := List (String × α)

namespace Table

variable {α : Type}

def get? (s : String) : Table α → Option α
  | [] => none
  | (t, a) :: r => if s = t then some a else get? s r

def has (s : String) (x : Table α) : Bool := (x.get? s).isSome

/-- The value of a name that is there changes, a new name comes last. -/
def set (s : String) (a : α) : Table α → Table α
  | [] => [(s, a)]
  | (t, b) :: r => if s = t then (t, a) :: r else (t, b) :: set s a r

def names (x : Table α) : List String := x.map (·.1)

@[simp] theorem get?_set (s t : String) (a : α) (x : Table α) :
    (x.set s a).get? t = if t = s then some a else x.get? t := by
  induction x with
  | nil => rfl
  | cons p r ih =>
    obtain ⟨u, b⟩ := p
    by_cases h : s = u
    · subst h
      by_cases ht : t = s <;> simp [set, get?, ht]
    · by_cases ht : t = u
      · subst ht
        simp [set, get?, h, Ne.symm h]
      · simp [set, get?, h, ht, ih]

theorem mem_of_get? {s : String} {a : α} {x : Table α} (h : x.get? s = some a) : (s, a) ∈ x := by
  induction x with
  | nil => cases h
  | cons p r ih =>
    obtain ⟨t, b⟩ := p
    by_cases hs : s = t
    · simp_all [get?]
    · rw [get?, if_neg hs] at h
      exact List.mem_cons_of_mem _ (ih h)

theorem mem_set {p : String × α} {s : String} {a : α} {x : Table α} (h : p ∈ x.set s a) :
    p = (s, a) ∨ p ∈ x := by
  induction x with
  | nil => exact .inl (List.mem_singleton.1 h)
  | cons q r ih =>
    obtain ⟨t, b⟩ := q
    by_cases hs : s = t
    · rw [set, if_pos hs, ← hs] at h
      exact (List.mem_cons.1 h).imp_right (List.mem_cons_of_mem _)
    · rw [set, if_neg hs] at h
      obtain rfl | h := List.mem_cons.1 h
      · exact .inr List.mem_cons_self
      · exact (ih h).imp_right (List.mem_cons_of_mem _)

def sorted (x : Table α) : Table α := x.mergeSort fun p q => p.1 ≤ q.1

end Table
end UnitCalculator
