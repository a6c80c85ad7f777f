import UnitCalculator.Main
import UnitCalculator.Proofs.Arithmetic.Range
import UnitCalculator.Proofs.Arithmetic.Floats
import UnitCalculator.Proofs.Arithmetic.Rounding
import UnitCalculator.Proofs.Term.Writing
import UnitCalculator.Proofs.Lexeme.Language
import UnitCalculator.Proofs.Lexeme.LongestMatch
import UnitCalculator.Proofs.Lexeme.Literal
import UnitCalculator.Proofs.Lexeme.Integer
import UnitCalculator.Proofs.Lexeme.Sequence
import UnitCalculator.Proofs.Lexeme.Gap
import UnitCalculator.Proofs.Units.Canonical
import UnitCalculator.Proofs.Units.Combination
import UnitCalculator.Proofs.Units.Normal
import UnitCalculator.Proofs.Units.NormalForm
import UnitCalculator.Proofs.Units.Cancelling
import UnitCalculator.Proofs.Units.Leaves
import UnitCalculator.Proofs.Units.Conversion
import UnitCalculator.Proofs.Grammar.Derivation
import UnitCalculator.Proofs.Grammar.Uniqueness
import UnitCalculator.Proofs.Grammar.Completeness
import UnitCalculator.Proofs.Grammar.Soundness
import UnitCalculator.Proofs.Grammar.Nesting
import UnitCalculator.Proofs.Grammar.Limit
import UnitCalculator.Proofs.Grammar.Shape
import UnitCalculator.Proofs.Session.Execution
import UnitCalculator.Proofs.Session.Contract
import UnitCalculator.Proofs.Session.Integers
import UnitCalculator.Proofs.Session.Operations
import UnitCalculator.Proofs.Session.Commands
import UnitCalculator.Proofs.Session.Values
import UnitCalculator.Proofs.Session.Levels
import UnitCalculator.Proofs.Session.Sound
import UnitCalculator.Proofs.Session.Invariants
import UnitCalculator.Proofs.Session.Pairs
import UnitCalculator.Proofs.Session.Dimension
import UnitCalculator.Proofs.Session.Mismatch
import UnitCalculator.Proofs.Session.Reachable
import UnitCalculator.Proofs.Session.Outcomes
import UnitCalculator.Proofs.Session.Failures
import UnitCalculator.Proofs.Session.Effects
import UnitCalculator.Proofs.Session.Refusals
import UnitCalculator.Proofs.Session.Course
import UnitCalculator.Proofs.Session.Failing
import UnitCalculator.Proofs.Session.Variables
import UnitCalculator.Proofs.Session.Namespace
import UnitCalculator.Proofs.Session.Stored
import UnitCalculator.Proofs.Session.Growth
import UnitCalculator.Proofs.Session.Settings
import UnitCalculator.Proofs.Session.Symbols
import UnitCalculator.Proofs.Session.Declaration
import UnitCalculator.Proofs.Display.Integer
import UnitCalculator.Proofs.Display.Real
import UnitCalculator.Proofs.Display.Numeral
import UnitCalculator.Proofs.Display.Unit
import UnitCalculator.Proofs.Display.ReadBack
import UnitCalculator.Proofs.Display.UnitTree
import UnitCalculator.Proofs.CommandLine.Transcript
import UnitCalculator.Proofs.CommandLine.Channels
