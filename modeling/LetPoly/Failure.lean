import LetPoly.CommandLine.Flag
import LetPoly.Dependency
import LetPoly.FileFault
import LetPoly.Script.Compile
import LetPoly.Settings.Basic
import LetPoly.SyntaxError
import LetPoly.TypeError
import LetPoly.Value.Eval

/-! # Failures

The ways in which an input, a program or a call of the command line fails.  A failure
keeps its cause: the stages at which it was met are added around it, outermost last,
and the message names them from the outside in.
-/

namespace LetPoly

/-- At which stage of the work a failure was met. -/
inductive Stage where
  /-- The definition of a prelude with this index, counted from zero. -/
  | prelude (index : Nat)
  | loadingPrelude
  | readingSource
  | readingSettings (path : String)
  | settings (path : String)
  /-- The program from a source of this name. -/
  | program (name : String)
  /-- The statement with this number, counted from one. -/
  | statement (number : Nat)
deriving DecidableEq, Repr

def Stage.describe : Stage → String
  | .prelude i => "prelude[" ++ Text.Decimal.natural i ++ "]"
  | .loadingPrelude => "loading prelude"
  | .readingSource => "reading source"
  | .readingSettings path => "reading config " ++ path
  | .settings path => path
  | .program name => name
  | .statement n => "statement " ++ Text.Decimal.natural n

/-- Why something fails. -/
inductive Failure where
  | syntactic (error : SyntaxError)
  | typing (error : TypeError)
  | running (error : RuntimeError)
  | misplaced (error : Misplacement)
  | compiling (error : Script.CompileError)
  | analyzing (error : Unanalyzable)
  | settings (error : SettingsError)
  | usage (error : UsageError)
  | unreadable (path : String) (fault : FileFault)
  | notDefinition (source : String)
  | unknownCommand (name : String)
  | noStatements
  | earlyExpression
  | longLine
  | within (stage : Stage) (inner : Failure)

namespace Failure

/-- **What a failure is reported as.** -/
def message : Failure → String
  | .syntactic e => e.message
  | .typing e => e.message
  | .running e => e.message
  | .misplaced e => e.message
  | .compiling e => e.message
  | .analyzing e => e.message
  | .settings e => e.message
  | .usage e => e.message
  | .unreadable path fault => fault.message path
  | .notDefinition source => Text.escaped source ++ " is not a definition"
  | .unknownCommand name => "Unknown command " ++ name ++ "; type :help for a list of commands"
  | .noStatements => "no statements"
  | .earlyExpression => "only the last statement may be an expression"
  | .longLine => "bufio.Scanner: token too long"
  | .within stage inner => stage.describe ++ ": " ++ inner.message

/-- The failure without the stages at which it was met. -/
def cause : Failure → Failure
  | .within _ inner => inner.cause
  | f => f

end Failure

end LetPoly
