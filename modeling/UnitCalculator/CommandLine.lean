import UnitCalculator.Session.Line

/-!
The calculator as a command: its options, the lines it is given, and what it writes for them.
Lines share one environment; the first that fails or exits is the last.
-/

set_option autoImplicit false

namespace UnitCalculator.CommandLine

structure Options where
  verbose : Bool
  dump : Bool
  words : List String
  /-- The lines behind `-e`. -/
  expressions : Option (List String)
  script : Option String

def Options.default : Options := ⟨false, false, [], none, none⟩

def isUnsignedNumber (k : Text.CharClasses) (ds : List Char) : Bool :=
  let atEnd (r : List Char) : Bool := r.isEmpty || r = ['\n']
  match ds.dropWhile k.digit with
  | '.' :: d :: r => k.digit d && atEnd (r.dropWhile k.digit)
  | r => ds.head?.any k.digit && atEnd r

def optionLetters : List Char := ['v', 'D', 'G', 'e', 's', 'p', 'h']

def isWord (k : Text.CharClasses) (s : String) : Bool :=
  match s.toList with
  | [] | ['-'] => true
  | '-' :: c :: r =>
    isUnsignedNumber k (c :: r) || (!optionLetters.contains c && (c :: r).contains ' ')
  | _ => true

def wordsMark : String := "--"

/-- The words behind the mark, unless there were words in front of the last option. -/
def Options.addWords (o : Options) (closed : Bool) : List String → Option Options
  | [] => some o
  | _ :: ws => if closed then none else some { o with words := o.words ++ ws }

/-- Options in any order, and the words of one expression side by side: behind an option there
are no more of them. Nothing for arguments that are refused. -/
def readOptions (k : Text.CharClasses) (o : Options) (closed : Bool) :
    List String → Option Options
  | [] => some o
  | a :: r =>
    let done := closed || !o.words.isEmpty
    if a = "-v" || a = "--verbose" then readOptions k { o with verbose := true } done r
    else if a = "-D" || a = "--dump" then readOptions k { o with dump := true } done r
    else if a = "-e" || a = "--expression" then
      if o.script.isSome then none
      else
        { o with expressions := some (r.takeWhile (· ≠ wordsMark)) }.addWords done
          (r.dropWhile (· ≠ wordsMark))
    else if a = wordsMark then o.addWords closed (a :: r)
    else if a = "-s" || a = "--script" then
      match r with
      | f :: r => if isWord k f then readOptions k { o with script := some f } done r else none
      | [] => none
    else if isWord k a && !closed then readOptions k { o with words := o.words ++ [a] } false r
    else none

def longOptions : List String :=
  ["--help", "--verbose", "--history", "--expression", "--script", "--prompt", "--raw-grammar",
    "--dump"]

def isAmbiguous (s : String) : Bool :=
  let name := s.toList.takeWhile (· ≠ '=')
  "--".toList.isPrefixOf name &&
    1 < (longOptions.filter fun o => name.isPrefixOf o.toList).length

/-- An ambiguous argument in front of the mark is refused, even as a line behind `-e`. -/
def options? (k : Text.CharClasses) (args : List String) : Option Options :=
  if (args.takeWhile (· ≠ wordsMark)).any isAmbiguous then none
  else readOptions k .default false args

def lines : List Char → List (List Char)
  | [] => []
  | c :: t =>
    if c = '\n' then [c] :: lines t
    else
      match lines t with
      | [] => [[c]]
      | l :: ls => (c :: l) :: ls

/-- In a script a line ends at a line feed, a carriage return or both. -/
def withLineFeeds : List Char → List Char
  | [] => []
  | '\r' :: '\n' :: t => '\n' :: withLineFeeds t
  | c :: t => (if c = '\r' then '\n' else c) :: withLineFeeds t

/-- Words win over a script, and both over what is read from the standard input, where only a line
feed ends a line. -/
def Options.source (o : Options) (script : Option (List Char)) (input : List Char) :
    List (List Char) :=
  if !o.words.isEmpty then [(String.intercalate " " o.words).toList]
  else
    match script, o.expressions with
    | some t, _ => lines (withLineFeeds t)
    | none, some es => es.map String.toList
    | none, none => lines input

structure Report where
  output : List String
  machine : Machine
  stop : Option Stop

def execute [Host] (k : Text.CharClasses) (env : Environment) (line : List Char) : Report :=
  match runLine k env line with
  | (.error s, m) => ⟨[], m, some s⟩
  | (.ok v, m) =>
    match m.env.display v with
    | .ok text => ⟨if text.isEmpty then [] else [text], m, none⟩
    | .error o => ⟨[], m, some (.failure (.unwritten o))⟩

def dump [Host] (k : Text.CharClasses) (env : Environment) (line : List Char) : Report :=
  let write (lines : List String) : Machine :=
    if env.debug then ⟨env, lines.reverse⟩ else Machine.start env
  let scanned := tokenTrace (lexemes k line)
  match tokenize k line with
  | .error e => ⟨[], write scanned, some (.failure (.lex e))⟩
  | .ok ts =>
    let tokens := String.intercalate "\t" (ts.map fun t => t.kind ++ ":" ++ t.shown)
    if ts.isEmpty then ⟨[tokens], write scanned, none⟩
    else
      let reading := parseWithVisits env.grammarNames env.maxDepth ts
      let machine := write (scanned ++ reading.visits.map Visit.line)
      match reading.outcome with
      | .error e => ⟨[tokens], machine, some (.failure (.parse e))⟩
      | .ok (t, _) =>
        match t.obstacle Host.writing with
        | none => ⟨[tokens, t.spelled], machine, none⟩
        | some o => ⟨[tokens], machine, some (.failure (.unwritten o))⟩

structure Outcome where
  status : Nat
  output : List String
  errors : List String
  deriving DecidableEq, Repr

def stopped : Stop → Outcome
  | .exit => ⟨0, [], []⟩
  | .failure f => ⟨1, [], if f.kind = .host then [] else [f.message]⟩

def run (handle : Environment → List Char → Report) : Environment → List (List Char) → Outcome
  | _, [] => ⟨0, [], []⟩
  | env, l :: ls =>
    let r := handle env l
    let rest := match r.stop with
      | some s => stopped s
      | none => run handle r.machine.env ls
    ⟨rest.status, r.output ++ rest.output, r.machine.trace.reverse ++ rest.errors⟩

def outcome [Host] (k : Text.CharClasses) (o : Options) (script : Option (List Char))
    (input : List Char) : Outcome :=
  let handle := if o.dump then dump k else execute k
  run handle { Environment.fresh with debug := o.verbose } (o.source script input)

def textOf (lines : List String) : String := String.join (lines.map (· ++ "\n"))

end UnitCalculator.CommandLine
