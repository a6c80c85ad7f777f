import UnitCalculator.Proofs.Lexeme.Literal
import UnitCalculator.Proofs.Lexeme.Sequence
import UnitCalculator.Proofs.Session.Variables

/-!
The symbols of units. Those that are typed are identifiers, and the table leads from identifiers to
identifiers; so the unit of every result is made of symbols that can be typed again.
-/

set_option autoImplicit false

namespace UnitCalculator

open Text UnitCalculator.Units

variable {k : CharClasses}

/-! Names in a line -/

theorem exists_mem_of_tokensOf {xs : List Lexeme} {ts : List Token} {t : Token}
    (h : tokensOf xs = .ok ts) (ht : t ∈ ts) : ∃ x ∈ xs, x.token? = .ok (some t) := by
  induction xs generalizing ts with
  | nil =>
    cases h
    cases ht
  | cons x xs ih =>
    have hrest {us : List Token} (hus : tokensOf xs = .ok us) (htu : t ∈ us) :
        ∃ y ∈ x :: xs, y.token? = .ok (some t) := by
      obtain ⟨y, hy, hyt⟩ := ih hus htu
      exact ⟨y, List.mem_cons_of_mem x hy, hyt⟩
    rw [tokensOf] at h
    split at h
    · cases h
    · exact hrest h ht
    · next u hu =>
      cases hus : tokensOf xs with
      | error e =>
        rw [hus] at h
        cases h
      | ok us =>
        rw [hus] at h
        cases h
        obtain rfl | ht := List.mem_cons.1 ht
        · exact ⟨x, List.mem_cons_self, hu⟩
        · exact hrest hus ht

theorem Lexeme.identifier_of_token? {x : Lexeme} {s : String}
    (h : x.token? = .ok (some (.ident s))) : x.group = .identifier ∧ s.toList = x.text := by
  have hinteger {radix : Nat} {body literal : List Char}
      (h : Literal.integer radix body literal = .ok (.ident s)) : False := by
    unfold Literal.integer at h
    split at h
    · cases h
    · simp only at h
      split at h <;> cases h
  unfold token? at h
  split at h
  · exact (hinteger (ok_of_map_some h)).elim
  · obtain ⟨y, hy⟩ := Literal.float_eq (ok_of_map_some h)
    cases hy
  · exact (hinteger (ok_of_map_some h)).elim
  · exact (hinteger (ok_of_map_some h)).elim
  · cases h
  · next hg =>
    cases h
    exact ⟨hg, String.toList_ofList⟩
  · cases h
  · cases h

theorem isIdentifier_of_tokenize {line : List Char} {ts : List Token} {s : String}
    (h : tokenize k line = .ok ts) (hs : .ident s ∈ ts) : IsIdentifier k s := by
  obtain ⟨x, hx, ht⟩ := exists_mem_of_tokensOf h hs
  obtain ⟨c, r, rfl⟩ := exists_first_of_mem_lexemes hx
  obtain ⟨hg, htext⟩ := Lexeme.identifier_of_token? ht
  have hmem := Lexeme.mem_language_first k c r
  rwa [hg, ← htext] at hmem

/-! Symbols in a term -/

/-- The units of the literals of the term are made of symbols with the property. -/
def Spelt (P : String → Prop) (t : Term) : Prop :=
  ∀ a u, Term.Part (.number a (.bracketed u)) t → ∀ s ∈ symbols u, P s

namespace Spelt

variable {P : String → Prop}

theorem number_absent (a : Number) : Spelt P (.number a .absent) := by
  intro b u h
  cases h

theorem number {a : Number} {u : Term} (hu : ∀ s ∈ symbols u, P s) :
    Spelt P (.number a (.bracketed u)) := by
  intro b v h
  cases h
  exact hu

theorem signed {o : Operator} {t : Term} (h : Spelt P t) : Spelt P (.signed o t) := by
  intro a u hu
  cases hu with
  | operand hu => exact h a u hu

theorem binary {o : Operator} {l r : Term} (hl : Spelt P l) (hr : Spelt P r) :
    Spelt P (.binary o l r) := by
  intro a u hu
  cases hu with
  | left hu => exact hl a u hu
  | right hu => exact hr a u hu

theorem name (s : String) : Spelt P (.name s) := by
  intro a u h
  cases h

theorem call {f : String} {ts : List Term} (h : ∀ t ∈ ts, Spelt P t) : Spelt P (.call f ts) := by
  intro a u hu
  cases hu with
  | argument ht hu => exact h _ ht a u hu

theorem command (c : String) (ts : List Token) : Spelt P (.command c ts) := by
  intro a u h
  cases h

end Spelt

namespace Grammar

def SpeltAs (P : String → Prop) : (s : Symbol) → Meaning s → Prop
  | .assign, t | .expr, t | .product, t | .unary, t | .power, t | .primary, t => Spelt P t
  | .additions, f | .factors, f => ∀ l, Spelt P l → Spelt P (f l)
  | .arguments, ts | .moreArguments, ts => ∀ t ∈ ts, Spelt P t
  | .brackets, u => ∀ a, Spelt P (.number a u)
  | .unit, u | .unitTerm, u | .unitAtom, u => ∀ s ∈ symbols u, P s
  | .unitFactors, f => ∀ u, (∀ s ∈ symbols u, P s) → ∀ s ∈ symbols (f u), P s

theorem Derivation.spelt {names : Names} {P : String → Prop} {s : Symbol}
    (d : Derivation names s) (h : ∀ s, .ident s ∈ d.yield → P s) : SpeltAs P s d.tree := by
  induction d with
  | value e ihe => exact ihe h
  | assignment l e ihl ihe =>
    exact .binary (ihl fun s hs => h s (by simp [hs])) (ihe fun s hs => h s (by simp [hs]))
  | sum p a ihp iha =>
    exact iha (fun s hs => h s (by simp [hs])) _ (ihp fun s hs => h s (by simp [hs]))
  | noAddition => exact fun _ hl => hl
  | addition o ho p a ihp iha =>
    exact fun _ hl => iha (fun s hs => h s (by simp [hs])) _
      (.binary hl (ihp fun s hs => h s (by simp [hs])))
  | product u f ihu ihf =>
    exact ihf (fun s hs => h s (by simp [hs])) _ (ihu fun s hs => h s (by simp [hs]))
  | noFactor => exact fun _ hl => hl
  | factor o ho u f ihu ihf =>
    exact fun _ hl => ihf (fun s hs => h s (by simp [hs])) _
      (.binary hl (ihu fun s hs => h s (by simp [hs])))
  | signed o ho u ihu => exact .signed (ihu fun s hs => h s (by simp [hs]))
  | unsigned p ihp => exact ihp h
  | plain p ihp => exact ihp h
  | raised p u ihp ihu =>
    exact .binary (ihp fun s hs => h s (by simp [hs])) (ihu fun s hs => h s (by simp [hs]))
  | number t a ht x b ihb => exact ihb (fun s hs => h s (by simp [hs])) _
  | parenthesized e ihe => exact ihe fun s hs => h s (by simp [hs])
  | name s hs => exact .name s
  | call f hf a iha => exact .call (iha fun s hs => h s (by simp [hs]))
  | command c hc ts hts => exact .command _ _
  | noArguments => exact nofun
  | someArguments e m ihe ihm =>
    exact List.forall_mem_cons.2
      ⟨ihe fun s hs => h s (by simp [hs]), ihm fun s hs => h s (by simp [hs])⟩
  | lastArgument => exact nofun
  | nextArgument e m ihe ihm =>
    exact List.forall_mem_cons.2
      ⟨ihe fun s hs => h s (by simp [hs]), ihm fun s hs => h s (by simp [hs])⟩
  | noUnit => exact Spelt.number_absent
  | bracketed u ihu => exact fun _ => .number (ihu fun s hs => h s (by simp [hs]))
  | unit u f ihu ihf =>
    exact ihf (fun s hs => h s (by simp [hs])) _ (ihu fun s hs => h s (by simp [hs]))
  | noUnitFactor => exact fun _ hu => hu
  | unitFactor o ho u f ihu ihf =>
    refine fun _ hl => ihf (fun s hs => h s (by simp [hs])) _ fun s hs => ?_
    exact (List.mem_append.1 hs).elim (hl s) (ihu (fun s hs => h s (by simp [hs])) s)
  | unitPlain a iha => exact iha h
  | unitRaised a n iha =>
    refine fun s hs => iha (fun s hs => h s (by simp [hs])) s ?_
    exact (List.mem_append.1 hs).resolve_right nofun
  | symbol s =>
    intro t ht
    obtain rfl := List.mem_singleton.1 ht
    exact h t (by simp)
  | one => exact nofun
  | unitParenthesized u ihu => exact ihu fun s hs => h s (by simp [hs])

end Grammar

theorem spelt_of_parse {names : Names} {limit : Int} {line : List Char} {ts : List Token} {t : Term}
    (hts : tokenize k line = .ok ts) (hp : parse names limit ts = .ok t) :
    Spelt (IsIdentifier k) t := by
  obtain ⟨d, rfl, rfl⟩ := Grammar.exists_derivation_of_parse hp
  exact d.spelt fun s hs => isIdentifier_of_tokenize hts hs

/-! Symbols in a dimension -/

namespace Units

def isAsciiWord (s : String) : Bool :=
  !s.toList.isEmpty && s.toList.all fun c => c.toNat < 128 && isAsciiLetter c

theorem isIdentifier_of_isAsciiWord {s : String} (h : isAsciiWord s = true) : IsIdentifier k s := by
  simp only [isAsciiWord, Bool.and_eq_true, Bool.not_eq_true', List.all_eq_true,
    decide_eq_true_eq] at h
  obtain ⟨hne, hall⟩ := h
  have hletter {c : Char} (hc : c ∈ s.toList) : k.letter c = true := by
    obtain ⟨ha, hl⟩ := hall c hc
    rw [k.letter_ascii c ha, hl]
    rfl
  obtain ⟨c, r, hr⟩ := List.exists_cons_of_ne_nil (List.isEmpty_eq_false_iff.1 hne)
  refine Group.mem_identifier.2 ⟨c, r, hr, hletter (by simp [hr]), fun d hd => ?_⟩
  rw [CharClasses.word, hletter (by simp [hr, hd])]
  rfl

theorem isAsciiWord_base : (table.all fun c => isAsciiWord (base c.symbol)) = true := by
  decide +kernel

theorem isIdentifier_base {s : String} (h : IsIdentifier k s) : IsIdentifier k (base s) := by
  cases hc : compound? s with
  | none => rwa [base_of_atomic hc]
  | some c =>
    obtain ⟨hm, rfl⟩ := mem_table_of_compound? hc
    exact isIdentifier_of_isAsciiWord (List.all_eq_true.1 isAsciiWord_base c hm)

theorem isIdentifier_atom {s : String} (h : IsIdentifier k s) : IsIdentifier k (atom s) := by
  have hrepeat (n : Nat) : IsIdentifier k (Nat.repeat base n s) := by
    induction n with
    | zero => exact h
    | succ n ih => exact isIdentifier_base ih
  exact hrepeat _

theorem Written.supported {u : Term} (hu : Written u) (h : ∀ s ∈ symbols u, IsIdentifier k s) :
    Supported (IsIdentifier k) (dimension u) := by
  induction hu with
  | @symbol s _ => exact .single (isIdentifier_atom (h s (by simp [symbols])))
  | one => exact .zero
  | times _ _ ihu ihv =>
    exact (ihu fun s hs => h s (by simp [symbols, hs])).add
      (ihv fun s hs => h s (by simp [symbols, hs]))
  | slash _ _ ihu ihv =>
    exact (ihu fun s hs => h s (by simp [symbols, hs])).sub
      (ihv fun s hs => h s (by simp [symbols, hs]))
  | @power u n _ _ ihu => exact (ihu fun s hs => h s (by simp [symbols, hs])).mul n

end Units

/-- The units of everything that has a name are made of identifiers. -/
def Environment.Spelt (k : CharClasses) (env : Environment) : Prop :=
  ∀ s q, env.lookup s = .ok (Quantity.toTerm q) →
    Supported (IsIdentifier k) (dimensionOf q.unit)

theorem spelt_builtin {s : String} {q : Quantity}
    (h : Environment.builtinConstants.get? s = some q.toTerm) :
    Supported (IsIdentifier k) (dimensionOf q.unit) := by
  have hall : ∀ p ∈ Environment.builtinConstants, ∃ a : Number, p.2 = .number a .absent := by
    simp only [Environment.builtinConstants, List.forall_mem_cons]
    exact ⟨⟨_, rfl⟩, ⟨_, rfl⟩, ⟨_, rfl⟩, ⟨_, rfl⟩, ⟨_, rfl⟩, List.forall_mem_nil _⟩
  obtain ⟨a, ha⟩ := hall _ (Table.mem_of_get? h)
  obtain ⟨b, p⟩ := q
  cases p with
  | none => exact .zero
  | some f => cases ha

variable [Host] {env : Environment}

theorem HasDimension.supported {t : Term} {d : Dimension} (h : HasDimension env t d)
    (he : env.Spelt k) (ht : Spelt (IsIdentifier k) t) : Supported (IsIdentifier k) d := by
  induction h with
  | plain a => exact .zero
  | @literal a u hu => exact hu.supported (ht a u .here)
  | name hs => exact he _ _ hs
  | call _ _ _ => exact .zero
  | signed _ ih => exact ih fun a u hu => ht a u (.operand hu)
  | assignment _ ih => exact ih fun a u hu => ht a u (.right hu)
  | times _ _ ihl ihr =>
    exact (ihl fun a u hu => ht a u (.left hu)).add (ihr fun a u hu => ht a u (.right hu))
  | slash _ _ ihl ihr =>
    exact (ihl fun a u hu => ht a u (.left hu)).sub (ihr fun a u hu => ht a u (.right hu))
  | zeroPower _ _ _ _ => exact .zero
  | @power l r d n _ _ _ ihl _ => exact (ihl fun a u hu => ht a u (.left hu)).mul n
  | uniform _ _ _ ihl _ => exact ihl fun a u hu => ht a u (.left hu)

/-! Sessions -/

theorem exists_hasDimension (h : Reachable k env) {line : List Char} {q : Quantity}
    (hq : (runLine k env line).1 = .ok (some q)) : ∃ ts t, tokenize k line = .ok ts ∧
      parse env.grammarNames env.maxDepth ts = .ok t ∧ HasDimension env t (dimensionOf q.unit) := by
  have hc := comes_runLine k env line
  rw [hq] at hc
  generalize env.after k line = env' at hc
  cases hc with
  | @evaluated ts t _ _ hts hp he =>
    have hline := secures_line h.sound (readableLine_of_parse hts hp).isLine
      (Nat.le_refl Host.evaluation)
    exact ⟨ts, t, hts, hp, (hline.ends he).2 _ rfl q rfl⟩

theorem supported_of_runLine (h : Reachable k env) (he : env.Spelt k) {line : List Char}
    {q : Quantity} (hq : (runLine k env line).1 = .ok (some q)) :
    Supported (IsIdentifier k) (dimensionOf q.unit) := by
  obtain ⟨ts, t, hts, hp, hd⟩ := exists_hasDimension h hq
  exact hd.supported he (spelt_of_parse hts hp)

theorem Reachable.spelt (h : Reachable k env) : env.Spelt k := by
  induction h with
  | start debug maxDepth =>
    intro s q hq
    obtain hq | ⟨-, hq⟩ := Environment.lookup_eq_ok.1 hq
    · exact spelt_builtin hq
    · cases hq
  | @line env line h ih =>
    intro s q hq
    obtain hq | ⟨hconst, hq⟩ := Environment.lookup_eq_ok.1 hq
    · rw [(h.line line).kept.constants] at hq
      exact spelt_builtin hq
    · have hconstants := (h.line line).kept.constants.trans h.kept.constants.symm
      have ht := turns_line h s line
      rw [hconstants] at hconst
      generalize (env.after k line).bindings.get? s = p at ht hq
      cases ht with
      | writes hw _ _ =>
        have hq := Quantity.toTerm_injective (Option.some.inj (Option.some.inj hq))
        exact hq ▸ supported_of_runLine h ih hw.1
      | declares _ _ _ => cases hq
      | keeps _ _ => exact ih s q (Environment.lookup_eq_ok.2 (.inr ⟨hconst, hq⟩))

theorem isIdentifier_of_runLine (h : Reachable k env) {line : List Char} {q : Quantity}
    (hq : (runLine k env line).1 = .ok (some q)) {f : Fraction} (hf : q.unit = some f) :
    ∀ p ∈ f.numerator ++ f.denominator, IsIdentifier k p.1 := by
  have hs := supported_of_runLine h h.spelt hq
  have hc : IsCanonical q.unit := by
    have ho := h.outcome line
    rw [hq] at ho
    exact (ho q rfl).unit.canonical
  rw [hf] at hs hc
  exact fun p hp => hs p.1 (hc.entry hp).2

end UnitCalculator
