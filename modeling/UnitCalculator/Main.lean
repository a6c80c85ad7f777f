import UnitCalculator.CommandLine

/-!
The command: reads its arguments, a script or the standard input, and writes what the lines lead
to.
-/

set_option autoImplicit false

namespace UnitCalculator.CommandLine

/-- A source is read only if a line may come from it. -/
def perform (o : Options) : IO UInt32 := do
  let script ← match o.script with
    | some f => some <$> IO.FS.readFile f
    | none => pure none
  let input ←
    if o.words.isEmpty && o.expressions.isNone && script.isNone then
      (← IO.getStdin).readToEnd
    else pure ""
  let r := outcome .standard o (script.map String.toList) input.toList
  IO.print (textOf r.output)
  IO.eprint (textOf r.errors)
  return r.status.toUInt32

end UnitCalculator.CommandLine

open UnitCalculator.CommandLine in
def main (args : List String) : IO UInt32 :=
  match options? .standard args with
  | some o => perform o
  | none => return 2
