import UnitCalculator.Proofs.CommandLine.Transcript
import UnitCalculator.Proofs.Session.Course

/-!
The ways to give lines to the command: behind an option, in a script and on the standard input. All of
them lead to one outcome, that of the session of the lines. Only the mark that ends the options, and
what begins more than one of them, cannot be given as lines behind `-e`.
-/

set_option autoImplicit false

namespace UnitCalculator.CommandLine

variable {k : Text.CharClasses}

/-! Options in front of lines -/

def AreFlags (flags : List String) : Prop := ∀ a ∈ flags, a = "-v" ∨ a = "--verbose"

def IsExpressionOption (a : String) : Prop := a = "-e" ∨ a = "--expression"

def IsScriptOption (a : String) : Prop := a = "-s" ∨ a = "--script"

section Options

variable {o : Options} {closed : Bool} {a : String}

theorem readOptions_flag (ha : a = "-v" ∨ a = "--verbose") (rest : List String) :
    readOptions k o closed (a :: rest) =
      readOptions k { o with verbose := true } (closed || !o.words.isEmpty) rest := by
  cases rest with
  | nil => obtain rfl | rfl := ha <;> rfl
  | cons b rest => obtain rfl | rfl := ha <;> rfl

theorem readOptions_expressions (ha : IsExpressionOption a) (ho : o.script = none)
    (rest : List String) : readOptions k o closed (a :: rest) =
      { o with expressions := some (rest.takeWhile (· ≠ wordsMark)) }.addWords
        (closed || !o.words.isEmpty) (rest.dropWhile (· ≠ wordsMark)) := by
  obtain ⟨v, d, ws, es, s⟩ := o
  obtain rfl : s = none := ho
  cases rest with
  | nil => obtain rfl | rfl := ha <;> rfl
  | cons b rest => obtain rfl | rfl := ha <;> rfl

theorem readOptions_script (ha : IsScriptOption a) {f : String} (hf : isWord k f = true) :
    readOptions k o closed [a, f] = some { o with script := some f } := by
  have hread : readOptions k o closed [a, f] =
      if isWord k f then
        readOptions k { o with script := some f } (closed || !o.words.isEmpty) []
      else none := by
    obtain rfl | rfl := ha <;> rfl
  rw [hread, if_pos hf]
  rfl

theorem readOptions_flags {flags : List String} (hf : AreFlags flags) (rest : List String)
    (ho : o.words = []) : readOptions k o false (flags ++ rest) =
      readOptions k { o with verbose := o.verbose || !flags.isEmpty } false rest := by
  induction flags generalizing o with
  | nil => simp
  | cons b flags ih =>
    obtain ⟨hb, hf⟩ := List.forall_mem_cons.1 hf
    have hdone : (false || !o.words.isEmpty) = false := by simp [ho]
    have hrest := ih hf (o := { o with verbose := true }) ho
    rw [List.cons_append, readOptions_flag hb, hdone, hrest]
    simp

end Options

def Options.traced (flags : List String) : Options :=
  { Options.default with verbose := !flags.isEmpty }

theorem AreFlags.not_ambiguous {flags : List String} (hf : AreFlags flags) :
    ∀ a ∈ flags, isAmbiguous a = false ∧ a ≠ wordsMark := by
  intro a ha
  obtain rfl | rfl := hf a ha
  · decide
  · decide

theorem options?_eq {flags : List String} (hf : AreFlags flags) (rest : List String)
    (hrest : ∀ a ∈ rest.takeWhile (· ≠ wordsMark), isAmbiguous a = false) :
    options? k (flags ++ rest) = readOptions k (.traced flags) false rest := by
  have hplain : ((flags ++ rest).takeWhile (· ≠ wordsMark)).any isAmbiguous = false := by
    have hflags := hf.not_ambiguous
    rw [List.takeWhile_append_of_pos fun a ha => by simpa using (hflags a ha).2, List.any_append,
      Bool.or_eq_false_iff, List.any_eq_false, List.any_eq_false]
    exact ⟨fun a ha => by simp [(hflags a ha).1], fun a ha => by simp [hrest a ha]⟩
  have hread : readOptions k .default false (flags ++ rest) = _ := readOptions_flags hf rest rfl
  rw [options?, hplain]
  exact hread

/-! What can be given as a line behind `-e` -/

/-- Neither the mark that ends the options nor the beginning of more than one of them. -/
def IsArgument (line : List Char) : Prop :=
  String.ofList line ≠ wordsMark ∧ isAmbiguous (String.ofList line) = false

theorem IsExpressionOption.not_ambiguous {e : String} (he : IsExpressionOption e) :
    isAmbiguous e = false ∧ e ≠ wordsMark := by
  obtain rfl | rfl := he
  · decide
  · decide

theorem IsScriptOption.not_ambiguous {a : String} (ha : IsScriptOption a) :
    isAmbiguous a = false := by
  obtain rfl | rfl := ha
  · decide
  · decide

section Expressions

variable {flags : List String} (hf : AreFlags flags) {e : String} (he : IsExpressionOption e)
  {lines : List (List Char)} (hlines : ∀ line ∈ lines, IsArgument line)

include hf he hlines

theorem options?_lines (rest : List String) (hrest : rest.takeWhile (· ≠ wordsMark) = []) :
    options? k (flags ++ e :: (lines.map String.ofList ++ rest)) =
      { Options.traced flags with expressions := some (lines.map String.ofList) }.addWords false
        rest := by
  have hpos : ∀ a ∈ lines.map String.ofList, decide (a ≠ wordsMark) = true := by
    intro a ha
    obtain ⟨line, hl, rfl⟩ := List.mem_map.1 ha
    exact decide_eq_true (hlines line hl).1
  have htake : (lines.map String.ofList ++ rest).takeWhile (· ≠ wordsMark) =
      lines.map String.ofList := by
    rw [List.takeWhile_append_of_pos hpos, hrest, List.append_nil]
  have hdrop : (lines.map String.ofList ++ rest).dropWhile (· ≠ wordsMark) = rest := by
    refine List.append_cancel_left (?_ : lines.map String.ofList ++ _ = _)
    calc lines.map String.ofList ++ (lines.map String.ofList ++ rest).dropWhile (· ≠ wordsMark)
      _ = (lines.map String.ofList ++ rest).takeWhile (· ≠ wordsMark) ++
          (lines.map String.ofList ++ rest).dropWhile (· ≠ wordsMark) := by rw [htake]
      _ = lines.map String.ofList ++ rest := List.takeWhile_append_dropWhile
  obtain ⟨heplain, hemark⟩ := he.not_ambiguous
  rw [options?_eq hf _, readOptions_expressions he rfl, htake, hdrop]
  · rfl
  · rw [List.takeWhile_cons, if_pos (decide_eq_true hemark), htake]
    refine List.forall_mem_cons.2 ⟨heplain, fun a ha => ?_⟩
    obtain ⟨line, hl, rfl⟩ := List.mem_map.1 ha
    exact (hlines line hl).2

theorem options?_expressions : options? k (flags ++ e :: lines.map String.ofList) =
    some { Options.traced flags with expressions := some (lines.map String.ofList) } := by
  have h := options?_lines (k := k) hf he hlines [] rfl
  rwa [List.append_nil] at h

/-- The mark ends the lines, and the words behind it make a line that is run instead of them. -/
theorem options?_mark (words : List String) :
    options? k (flags ++ e :: (lines.map String.ofList ++ wordsMark :: words)) =
      some { Options.traced flags with
        words := words, expressions := some (lines.map String.ofList) } :=
  options?_lines hf he hlines _ (List.takeWhile_cons_of_neg (by simp))

end Expressions

theorem options?_script {flags : List String} (hf : AreFlags flags) {a f : String}
    (ha : IsScriptOption a) (hword : isWord k f = true) (hplain : isAmbiguous f = false) :
    options? k (flags ++ [a, f]) = some { Options.traced flags with script := some f } := by
  rw [options?_eq hf _, readOptions_script ha hword]
  intro b hb
  have hb : b = a ∨ b = f := by simpa using (List.takeWhile_prefix _).subset hb
  obtain rfl | rfl := hb
  · exact ha.not_ambiguous
  · exact hplain

theorem options?_flags {flags : List String} (hf : AreFlags flags) :
    options? k flags = some (.traced flags) := by
  have h := options?_eq (k := k) hf [] (by simp)
  rw [List.append_nil] at h
  rw [h]
  rfl

/-- Lines lead to one outcome, whether they are given behind `-e`, as a script or on the standard
input: the texts of their session, up to the first line that fails or exits. A carriage return of its
own ends a line in a script only. -/
theorem channels_agree [Host] (k : Text.CharClasses) {flags : List String} (hf : AreFlags flags)
    {lines : List (List Char)} (hlines : ∀ line ∈ lines, ∀ c ∈ line, ¬IsBreak c) :
    let start := { Environment.fresh with debug := !flags.isEmpty }
    ∃ texts s o, Shows k start lines texts s ∧
      o.status = exitStatus s ∧ o.output = texts.filter (!·.isEmpty) ∧
      (s ≠ none → ∀ more, run (execute k) start (lines ++ more) = o) ∧
      ((∀ line ∈ lines, IsArgument line) → ∀ e, IsExpressionOption e →
        ∃ opts, options? k (flags ++ e :: lines.map String.ofList) = some opts ∧
          ∀ input, outcome k opts none input = o) ∧
      (∀ text, Written scriptEnds lines text →
        ∀ a f, IsScriptOption a → isWord k f = true → isAmbiguous f = false →
          ∃ opts, options? k (flags ++ [a, f]) = some opts ∧ opts.script = some f ∧
            ∀ input, outcome k opts (some text) input = o) ∧
      ∀ text, Written inputEnds lines text →
        ∃ opts, options? k flags = some opts ∧ outcome k opts none text = o := by
  intro start
  obtain ⟨texts, s, hs, hstatus, houtput, hmore⟩ := exists_shows k start lines
  refine ⟨texts, s, _, hs, hstatus, houtput, hmore, fun hargs e he => ?_,
    fun text hw a f ha hword hplain => ?_, fun text hw => ?_⟩
  · refine ⟨_, options?_expressions hf he hargs, fun input => ?_⟩
    have hback : (lines.map String.ofList).map String.toList = lines := by simp
    exact congrArg (run (execute k) start) hback
  · exact ⟨_, options?_script hf ha hword hplain, rfl, fun _ => run_script hw hlines start⟩
  · exact ⟨_, options?_flags hf, run_input hw hlines start⟩

theorem runLine_int {line : List Char} {n : Int} (hts : tokenize .standard line = .ok [.int n]) :
    (runLine .standard .fresh line).1 = .ok (some ⟨.int n, none⟩) ∧
      Environment.fresh.after .standard line = .fresh :=
  runLine_of_ends (ends_calculate (t := .int n) hts (List.cons_ne_nil _ _) rfl
    fun tr => ⟨tr, rfl⟩)

theorem tokenize_one : tokenize .standard "1".toList = .ok [.int 1] :=
  tokenize_cons rfl rfl (tokenize_nil _)

theorem shown_int {line : List Char} {n : Int} (hts : tokenize .standard line = .ok [.int n])
    (hn : Whole.InRange n) : shown .standard .fresh line =
      .ok (Display.term .decimal 0 (Quantity.toTerm ⟨.int n, none⟩)) := by
  obtain ⟨hr, he⟩ := runLine_int hts
  have hshort : (Quantity.toTerm ⟨.int n, none⟩).Short :=
    Quantity.short_toTerm_iff.2 ⟨intObstacle_of_inRange hn, rfl⟩
  exact shown_of_ok hr (he.symm ▸ Environment.fresh.display_of_short hshort)

theorem shows_int {line : List Char} {n : Int} (hts : tokenize .standard line = .ok [.int n])
    (hn : Whole.InRange n) {lines : List (List Char)} {texts : List String} {s : Option Stop}
    (h : Shows .standard .fresh lines texts s) : Shows .standard .fresh (line :: lines)
      (Display.term .decimal 0 (Quantity.toTerm ⟨.int n, none⟩) :: texts) s :=
  .line (shown_int hts hn) ((runLine_int hts).2.symm ▸ h)

theorem shows_minuses (lines : List (List Char)) : Shows .standard .fresh ("--".toList :: lines) []
    (some (.failure (.parse .endOfInput))) := by
  have hts : tokenize .standard "--".toList = .ok [.op .minus, .op .minus] :=
    tokenize_cons rfl rfl (tokenize_cons rfl rfl (tokenize_nil _))
  have hr : (runLine .standard .fresh "--".toList).1 = .error (.failure (.parse .endOfInput)) :=
    (runLine_of_ends (ends_unread hts (List.cons_ne_nil _ _) rfl)).1
  exact .stop (shown_of_error hr)

theorem isArgument_one : ∀ line ∈ ["1".toList], IsArgument line :=
  List.forall_mem_singleton.2 ⟨by decide, by decide⟩

theorem channels_agree_one : ∃ (o : Outcome) (opts₁ opts₂ opts₃ : Options),
    o.status = 0 ∧ o.output = ["1"] ∧
      options? .standard ["-e", "1"] = some opts₁ ∧ outcome .standard opts₁ none [] = o ∧
      options? .standard ["-s", "lines"] = some opts₂ ∧
        outcome .standard opts₂ (some "1\r".toList) [] = o ∧
      options? .standard [] = some opts₃ ∧ outcome .standard opts₃ none "1\r\n".toList = o := by
  have hflags : AreFlags [] := fun _ h => nomatch h
  have hlines : ∀ line ∈ ["1".toList], ∀ c ∈ line, ¬IsBreak c :=
    List.forall_mem_singleton.2 (List.forall_mem_singleton.2 (not_or.2 ⟨by decide, by decide⟩))
  have hboth : ['\r', '\n'] ∈ inputEnds := by decide
  have hreturn : ['\r'] ∈ scriptEnds := by decide
  have hinput : Written inputEnds ["1".toList] "1\r\n".toList := .line hboth .nothing
  have hscript : Written scriptEnds ["1".toList] "1\r".toList := .line hreturn .nothing
  obtain ⟨texts, s, o, hs, hstatus, houtput, -, hexpressions, hscripts, hinputs⟩ :=
    channels_agree .standard hflags hlines
  obtain ⟨opts₁, h₁, ho₁⟩ := hexpressions isArgument_one "-e" (.inl rfl)
  obtain ⟨opts₂, h₂, -, ho₂⟩ := hscripts _ hscript "-s" "lines" (.inl rfl) rfl (by decide)
  obtain ⟨opts₃, h₃, ho₃⟩ := hinputs _ hinput
  obtain ⟨rfl, rfl⟩ := (shows_int tokenize_one (by decide) .nothing).unique hs
  exact ⟨o, opts₁, opts₂, opts₃, hstatus, houtput, h₁, ho₁ [], h₂, ho₂ [], h₃, ho₃⟩

/-- Behind `-e`, the mark is no line, and the line in front of it is lost. In a session it fails, behind
the result of the line in front of it. -/
theorem mark_is_no_line :
    (∃ opts, options? .standard ["-e", "1", "--", "2"] = some opts ∧
      ∀ input, (outcome .standard opts none input).status = 0 ∧
        (outcome .standard opts none input).output = ["2"]) ∧
      Shows .standard .fresh ["1".toList, "--".toList, "2".toList] ["1"]
        (some (.failure (.parse .endOfInput))) := by
  have hflags : AreFlags [] := fun _ h => nomatch h
  have htwo : tokenize .standard "2".toList = .ok [.int 2] :=
    tokenize_cons rfl rfl (tokenize_nil _)
  refine ⟨⟨_, options?_mark hflags (.inl rfl) isArgument_one ["2"], fun input => ?_⟩,
    shows_int tokenize_one (by decide) (shows_minuses _)⟩
  obtain ⟨texts, s, hs, hstatus, houtput, -⟩ := exists_shows .standard .fresh ["2".toList]
  obtain ⟨rfl, rfl⟩ := (shows_int htwo (by decide) .nothing).unique hs
  exact ⟨hstatus, houtput⟩

end UnitCalculator.CommandLine
