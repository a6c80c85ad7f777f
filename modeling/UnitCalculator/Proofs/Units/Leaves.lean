import Mathlib.Algebra.BigOperators.Group.Multiset.Basic
import UnitCalculator.Proofs.Units.Expansion

/-!
The leaves of a unit whose powers become products. A leaf comes as often as the exponents around it
say when they are multiplied, on the side of the bar that it was on; nothing else comes of it but a
number one for every zero power. The limit on powers is one on the number of leaves.
-/

set_option autoImplicit false

namespace UnitCalculator.Units

inductive Composed : Term → Prop where
  | symbol (s : String) : Composed (.name s)
  | one : Composed (.int 1)
  | times {u v : Term} : Composed u → Composed v → Composed (.binary .times u v)
  | slash {u v : Term} : Composed u → Composed v → Composed (.binary .slash u v)
  | power {u : Term} {n : Int} : 0 ≤ n → Composed u → Composed (.binary .caret u (.int n))

inductive Side where
  | above | below
  deriving DecidableEq, Repr

def Side.across : Side → Side
  | above => below
  | below => above

/-- A leaf of a unit, with the product of all exponents that stand around it. -/
structure Occurrence where
  leaf : Term
  side : Side
  product : Nat

/-- The leaves of a unit that stands on `side`, within exponents whose product is `product`. -/
def occurrences (side : Side) (product : Nat) : Term → List Occurrence
  | .binary .times u v => occurrences side product u ++ occurrences side product v
  | .binary .slash u v => occurrences side product u ++ occurrences side.across product v
  | .binary .caret u (.number (.int n) _) => occurrences side (product * n.toNat) u
  | u => [⟨u, side, product⟩]

/-- The zero powers of a unit, each as the number one that it is. What is within one of them does not
count. -/
def zeroPowers (side : Side) (product : Nat) : Term → List Occurrence
  | .binary .times u v => zeroPowers side product u ++ zeroPowers side product v
  | .binary .slash u v => zeroPowers side product u ++ zeroPowers side.across product v
  | .binary .caret u (.number (.int n) _) =>
    if n = 0 then [⟨.int 1, side, product⟩] else zeroPowers side (product * n.toNat) u
  | _ => []

/-- As many copies of each leaf as its exponents say. -/
def copies (os : List Occurrence) : Multiset (Term × Side) :=
  (os.map fun o => Multiset.replicate o.product (o.leaf, o.side)).sum

def leaves (side : Side) (u : Term) : Multiset (Term × Side) :=
  (occurrences side 1 u).map fun o => (o.leaf, o.side)

/-! Copies -/

theorem copies_append (os ps : List Occurrence) : copies (os ++ ps) = copies os + copies ps := by
  rw [copies, List.map_append, List.sum_append]
  rfl

theorem copies_singleton (o : Occurrence) :
    copies [o] = Multiset.replicate o.product (o.leaf, o.side) := by
  simp [copies]

def Occurrence.raise (n : Nat) (o : Occurrence) : Occurrence := { o with product := o.product * n }

theorem copies_raise (n : Nat) (os : List Occurrence) :
    copies (os.map (.raise n)) = n • copies os := by
  induction os with
  | nil => simp [copies]
  | cons o os ih =>
    have hcons (p : Occurrence) (ps : List Occurrence) :
        copies (p :: ps) = Multiset.replicate p.product (p.leaf, p.side) + copies ps := rfl
    rw [List.map_cons, hcons, hcons, ih, nsmul_add, Multiset.nsmul_replicate]
    simp only [Occurrence.raise, Nat.mul_comm]

theorem occurrences_raise {u : Term} (h : Composed u) (side : Side) (p n : Nat) :
    occurrences side (p * n) u = (occurrences side p u).map (.raise n) := by
  induction h generalizing side p with
  | symbol s => rfl
  | one => rfl
  | times _ _ hu hv => rw [occurrences, occurrences, hu, hv, List.map_append]
  | slash _ _ hu hv => rw [occurrences, occurrences, hu, hv, List.map_append]
  | power _ _ hu => rw [Term.int, occurrences, occurrences, Nat.mul_right_comm, hu]

theorem zeroPowers_raise {u : Term} (h : Composed u) (side : Side) (p n : Nat) :
    zeroPowers side (p * n) u = (zeroPowers side p u).map (.raise n) := by
  induction h generalizing side p with
  | symbol s => rfl
  | one => rfl
  | times _ _ hu hv => rw [zeroPowers, zeroPowers, hu, hv, List.map_append]
  | slash _ _ hu hv => rw [zeroPowers, zeroPowers, hu, hv, List.map_append]
  | power _ _ hu =>
    rw [Term.int, zeroPowers, zeroPowers]
    split
    · rfl
    · rw [Nat.mul_right_comm, hu]

theorem occurrences_power {u : Term} (h : Composed u) (side : Side) (m : Nat) :
    occurrences side 1 (.binary .caret u (.int m)) = (occurrences side 1 u).map (.raise m) :=
  occurrences_raise h side 1 m

theorem zeroPowers_power {u : Term} (h : Composed u) (side : Side) {m : Nat} (hm : 0 < m) :
    zeroPowers side 1 (.binary .caret u (.int m)) = (zeroPowers side 1 u).map (.raise m) := by
  rw [Term.int, zeroPowers, if_neg (by omega)]
  exact zeroPowers_raise h side 1 m

/-! Leaves -/

theorem leaves_times (side : Side) (u v : Term) :
    leaves side (.binary .times u v) = leaves side u + leaves side v := by
  rw [leaves, occurrences, List.map_append]
  rfl

theorem leaves_slash (side : Side) (u v : Term) :
    leaves side (.binary .slash u v) = leaves side u + leaves side.across v := by
  rw [leaves, occurrences, List.map_append]
  rfl

theorem leaves_power {u : Term} (h : Composed u) (side : Side) (n : Int) :
    leaves side (.binary .caret u (.int n)) = leaves side u := by
  rw [leaves, Term.int, occurrences, occurrences_raise h, List.map_map]
  rfl

theorem leaves_repeated (side : Side) (b p : Term) (k : Nat) :
    leaves side (repeated b k p) = k • leaves side b + leaves side p := by
  induction k generalizing p with
  | zero => rw [repeated, zero_nsmul, zero_add]
  | succ k ih => rw [repeated, ih, leaves_times, succ_nsmul, add_assoc]

theorem leaves_product (side : Side) (b : Term) {m : Nat} (hm : 0 < m) :
    leaves side (repeated b (m - 1) b) = m • leaves side b := by
  rw [leaves_repeated, ← succ_nsmul, Nat.sub_add_cancel hm]

theorem card_leaves_pos {u : Term} (h : Composed u) (side : Side) : 0 < (leaves side u).card := by
  induction h generalizing side with
  | symbol s => exact Nat.one_pos
  | one => exact Nat.one_pos
  | times _ _ hu _ =>
    rw [leaves_times, Multiset.card_add]
    exact Nat.add_pos_left (hu side) _
  | slash _ _ hu _ =>
    rw [leaves_slash, Multiset.card_add]
    exact Nat.add_pos_left (hu side) _
  | power _ hu ih => exact leaves_power hu side _ ▸ ih side

/-! Expansion -/

/-- What becomes of the leaves of `u` in `v`, where `scale` is the power that stands around `u`. -/
structure Multiplied (scale : Nat) (u v : Term) : Prop where
  flat : Flat v
  leaves_eq (side : Side) :
    leaves side v = copies (occurrences side 1 u) + copies (zeroPowers side 1 u)
  product_le (side : Side) : ∀ o ∈ occurrences side 1 u, o.product * scale ≤ 64
  card_le (side : Side) : (leaves side v).card * scale ≤ 64 * (leaves side u).card

theorem Multiplied.leaf {scale : Nat} {u : Term} (hs : scale ≤ 64) (hu : Flat u)
    (ho : ∀ side, occurrences side 1 u = [⟨u, side, 1⟩]) (hz : ∀ side, zeroPowers side 1 u = []) :
    Multiplied scale u u where
  flat := hu
  leaves_eq side := by
    rw [leaves, ho, hz, copies_singleton]
    rfl
  product_le side o h := by
    rw [ho, List.mem_singleton] at h
    subst h
    simpa using hs
  card_le side := Nat.mul_comm _ _ ▸ Nat.mul_le_mul_right _ hs

theorem Multiplied.times {scale : Nat} {u v u' v' : Term} (hu : Multiplied scale u u')
    (hv : Multiplied scale v v') :
    Multiplied scale (.binary .times u v) (.binary .times u' v') where
  flat := hu.flat.times hv.flat
  leaves_eq side := by
    rw [leaves_times, hu.leaves_eq, hv.leaves_eq, occurrences, zeroPowers, copies_append,
      copies_append, add_add_add_comm]
  product_le side o h := by
    rw [occurrences, List.mem_append] at h
    exact h.elim (hu.product_le side o) (hv.product_le side o)
  card_le side := by
    rw [leaves_times, leaves_times, Multiset.card_add, Multiset.card_add, Nat.add_mul, Nat.mul_add]
    exact Nat.add_le_add (hu.card_le side) (hv.card_le side)

theorem Multiplied.slash {scale : Nat} {u v u' v' : Term} (hu : Multiplied scale u u')
    (hv : Multiplied scale v v') :
    Multiplied scale (.binary .slash u v) (.binary .slash u' v') where
  flat := hu.flat.slash hv.flat
  leaves_eq side := by
    rw [leaves_slash, hu.leaves_eq, hv.leaves_eq, occurrences, zeroPowers, copies_append,
      copies_append, add_add_add_comm]
  product_le side o h := by
    rw [occurrences, List.mem_append] at h
    exact h.elim (hu.product_le side o) (hv.product_le side.across o)
  card_le side := by
    rw [leaves_slash, leaves_slash, Multiset.card_add, Multiset.card_add, Nat.add_mul, Nat.mul_add]
    exact Nat.add_le_add (hu.card_le side) (hv.card_le side.across)

theorem Multiplied.zeroPower {scale : Nat} {u : Term} (hc : Composed u) (hs : scale ≤ 64) :
    Multiplied scale (.binary .caret u (.int 0)) (.int 1) where
  flat := .int 1 _
  leaves_eq side := by
    rw [← Nat.cast_zero, occurrences_power hc, copies_raise, zero_nsmul, zero_add]
    exact (copies_singleton ⟨.int 1, side, 1⟩).symm
  product_le side o h := by
    rw [← Nat.cast_zero, occurrences_power hc] at h
    obtain ⟨p, -, rfl⟩ := List.mem_map.1 h
    simp [Occurrence.raise]
  card_le side := by
    rw [leaves_power hc]
    have hpos := card_leaves_pos hc side
    have hone : (leaves side (.int 1)).card = 1 := rfl
    rw [hone]
    omega

theorem Multiplied.power {scale m : Nat} {u b : Term} (hc : Composed u)
    (h : Multiplied (m * scale) u b) (hm : 0 < m) :
    Multiplied scale (.binary .caret u (.int m)) (repeated b (m - 1) b) where
  flat := flat_repeated h.flat h.flat _
  leaves_eq side := by
    rw [leaves_product side b hm, occurrences_power hc, zeroPowers_power hc side hm, copies_raise,
      copies_raise, ← nsmul_add, h.leaves_eq]
  product_le side o ho := by
    rw [occurrences_power hc] at ho
    obtain ⟨p, hp, rfl⟩ := List.mem_map.1 ho
    rw [Occurrence.raise, Nat.mul_assoc]
    exact h.product_le side p hp
  card_le side := by
    rw [leaves_product side b hm, leaves_power hc, Multiset.card_nsmul, Nat.mul_comm m,
      Nat.mul_assoc]
    exact h.card_le side

theorem ok_expandExponents_binary {op : Operator} (h : op = .times ∨ op = .slash) {scale : Int}
    {u v w : Term} (hw : expandExponents scale (.binary op u v) = .ok w) :
    ∃ u' v', expandExponents scale u = .ok u' ∧ expandExponents scale v = .ok v' ∧
      w = .binary op u' v' := by
  rw [expandExponents_binary h] at hw
  cases hu : expandExponents scale u with
  | error e => simp [hu, Except.bind] at hw
  | ok u' =>
    cases hv : expandExponents scale v with
    | error e => simp [hu, hv, Except.bind] at hw
    | ok v' => exact ⟨u', v', rfl, rfl, by simpa [hu, hv, Except.bind] using hw.symm⟩

theorem ok_expandExponents_power {scale m : Nat} {u w : Term}
    (hw : expandExponents scale (.binary .caret u (.int m)) = .ok w) : m * scale ≤ 64 ∧
      (m = 0 ∧ w = .int 1 ∨
        ∃ b, 0 < m ∧ expandExponents (m * scale : Nat) u = .ok b ∧ w = repeated b (m - 1) b) := by
  rw [Term.int, expandExponents] at hw
  split at hw
  · simp at hw
  next hle =>
  have hle : m * scale ≤ 64 := by
    have hmax : maxExponent = 64 := rfl
    have hcast : ((m * scale : Nat) : Int) = m * scale := Nat.cast_mul m scale
    omega
  refine ⟨hle, ?_⟩
  split at hw
  · next hz => exact .inl ⟨by omega, by simpa using hw.symm⟩
  · next hz =>
    rw [← Nat.cast_mul] at hw
    cases hb : expandExponents (m * scale : Nat) u with
    | error e =>
      rw [hb] at hw
      cases hw
    | ok b =>
      refine .inr ⟨b, by omega, rfl, ?_⟩
      have hk : ((m : Int) - 1).toNat = m - 1 := by omega
      rw [hb, hk] at hw
      exact (Except.ok.inj hw).symm

theorem Composed.multiplied {u v : Term} (hu : Composed u) {scale : Nat} (hs : scale ≤ 64)
    (h : expandExponents scale u = .ok v) : Multiplied scale u v := by
  induction hu generalizing scale v with
  | symbol s =>
    cases h
    exact .leaf hs (.symbol s) (fun _ => rfl) (fun _ => rfl)
  | one =>
    cases h
    exact .leaf hs (.int 1 _) (fun _ => rfl) (fun _ => rfl)
  | times _ _ hu hv =>
    obtain ⟨u', v', hu', hv', rfl⟩ := ok_expandExponents_binary (.inl rfl) h
    exact (hu hs hu').times (hv hs hv')
  | slash _ _ hu hv =>
    obtain ⟨u', v', hu', hv', rfl⟩ := ok_expandExponents_binary (.inr rfl) h
    exact (hu hs hu').slash (hv hs hv')
  | @power u n hn hc hu =>
    obtain ⟨m, rfl⟩ := Int.eq_ofNat_of_zero_le hn
    obtain ⟨hle, ⟨rfl, rfl⟩ | ⟨b, hm, hb, rfl⟩⟩ := ok_expandExponents_power h
    · exact .zeroPower hc hs
    · exact (hu hle hb).power hc hm

/-- Powers become products exactly and within bounds. There are as many copies of a leaf, on its side
of the bar, as the exponents around it make when they are multiplied, which are at most 64; all else
are the numbers one that zero powers become. -/
theorem leaves_expandExponents {u v : Term} (hu : Composed u) (h : expandExponents 1 u = .ok v) :
    Flat v ∧
      leaves .above v = copies (occurrences .above 1 u) + copies (zeroPowers .above 1 u) ∧
      (∀ o ∈ occurrences .above 1 u, o.product ≤ 64) ∧
      (leaves .above v).card ≤ 64 * (leaves .above u).card := by
  have hm : Multiplied 1 u v := hu.multiplied (by decide) h
  refine ⟨hm.flat, hm.leaves_eq _, fun o ho => ?_, ?_⟩
  · simpa using hm.product_le _ o ho
  · simpa using hm.card_le .above

def nestedPowers : Term :=
  .binary .slash (.binary .caret (.binary .slash (.name "m") (.binary .caret (.name "s") (.int 2)))
    (.int 3)) (.binary .times (.binary .caret (.name "kg") (.int 0)) (.name "A"))

theorem leaves_expandExponents_nestedPowers : Composed nestedPowers ∧
    ∃ v, expandExponents 1 nestedPowers = .ok v ∧ Flat v ∧
      leaves .above v =
        copies (occurrences .above 1 nestedPowers) + copies (zeroPowers .above 1 nestedPowers) ∧
      (∀ o ∈ occurrences .above 1 nestedPowers, o.product ≤ 64) ∧
      (leaves .above v).card ≤ 64 * (leaves .above nestedPowers).card := by
  have hu : Composed nestedPowers :=
    .slash (.power (by decide) (.slash (.symbol "m") (.power (by decide) (.symbol "s"))))
      (.times (.power (by decide) (.symbol "kg")) (.symbol "A"))
  exact ⟨hu, _, rfl, leaves_expandExponents hu rfl⟩

end UnitCalculator.Units
