import LetPoly.Expr.Dump
import LetPoly.Expr.Placement
import LetPoly.Expr.Reader
import LetPoly.Failure
import LetPoly.Infer.Context
import LetPoly.Text.Blank
import LetPoly.Value.Eval

/-! # Sessions

A session reads one input after another.  A definition extends the types and the
values of the session, an expression is typed and evaluated in them, and a command,
which starts with a colon, asks about the session or changes it as a whole.

What fails leaves the types, the values and the prelude as they were.  The one
exception is the command `:reset`, which drops every definition before it loads the
prelude again.
-/

namespace LetPoly

structure Session where
  context : Context := {}
  /-- The schemes of the defined names. -/
  types : TypeEnv := .empty
  /-- The values of the defined names. -/
  values : Env := []
  /-- The sources of the definitions that `:reset` makes again. -/
  prelude : List String := []

/-- What an input comes to. -/
inductive Outcome where
  | defined (definition : Definition) (scheme : Ty) (value : Value)
  | evaluated (type : Ty) (value : Value)
  | typed (type : Ty)
  | told (text : String)
  | farewell

namespace Outcome

/-- **How an outcome is written**, with the type passed through `paint`. -/
def render (paint : String → String) : Outcome → String
  | .defined d t v => d.pat.text ++ " : " ++ paint t.display ++ " = " ++ v.text
  | .evaluated t v => v.text ++ " : " ++ paint t.display
  | .typed t => paint t.display
  | .told s => s
  | .farewell => "Bye"

def text (r : Outcome) : String := r.render id

end Outcome

namespace Session

/-- The commands, by their full names. -/
def commandNames : List String := [":type", ":env", ":ast", ":reset", ":help", ":quit"]

/-- The answer to `:help`. -/
def help : String := "\n".intercalate [
  "Enter an expression to evaluate it, or a definition (val x = e) to extend the session.",
  "Commands:",
  "  :type <expr>   show the type of an expression without evaluating it",
  "  :env           list the definitions of the session",
  "  :ast <expr>    dump the syntax tree of an expression",
  "  :reset         discard every definition except the prelude",
  "  :help          show this message",
  "  :quit          leave the session"]

/-- A step of a session. -/
abbrev Step (α : Type) : Type := Except Failure α × Session

/-! ## Statements -/

/-- Makes a definition.  The session changes only if it has both a type and a value. -/
def define (s : Session) (d : Definition) : Step Outcome :=
  match s.context.define s.types (some d) with
  | (.error e, context) => (.error (.typing e), { s with context })
  | (.ok (types, scheme), context) =>
    match Value.evalDefinition Value.programBound s.values d with
    | .error e => (.error (.running e), { s with context })
    | .ok (values, v) =>
      (.ok (.defined d scheme v),
        { s with context := context.tell (.defined d.pat scheme), types, values })

/-- The type and the value of an expression. -/
def evaluate (s : Session) (e : Expr) : Step Outcome :=
  match e.validate with
  | .error m => (.error (.misplaced m), s)
  | .ok () =>
    match s.context.infer s.types e with
    | (.error e, context) => (.error (.typing e), { s with context })
    | (.ok t, context) =>
      match Value.eval Value.programBound s.values e with
      | .error e => (.error (.running e), { s with context })
      | .ok v => (.ok (.evaluated t v), { s with context })

/-- **Executes a statement.** -/
def exec (s : Session) (e : Expr) : Step Outcome :=
  match e.definition? with
  | some d => s.define d
  | none => s.evaluate e

/-! ## The prelude -/

/-- Makes the definitions of a prelude, the first of which has an index, up to the
first that fails.  Those that are made are kept for `:reset`. -/
def loadFrom (s : Session) (index : Nat) : List String → Step Unit
  | [] => (.ok (), s)
  | source :: sources =>
    let fail (f : Failure) : Except Failure Unit := .error (.within (.prelude index) f)
    match Expr.parseProgram source.toList with
    | .error e => (fail (.syntactic e), s)
    | .ok e =>
      match e.definition? with
      | none => (fail (.notDefinition source), s)
      | some d =>
        match s.define d with
        | (.error f, s) => (fail f, s)
        | (.ok _, s) => loadFrom { s with prelude := s.prelude ++ [source] } (index + 1) sources

/-- **Loads a prelude.** -/
def load (s : Session) (sources : List String) : Step Unit := s.loadFrom 0 sources

/-- **Drops every definition and loads the prelude again.** -/
def reset (s : Session) : Step Unit := load { context := s.context } s.prelude

/-! ## Commands -/

/-- A character that ends the name of a command. -/
def endsName (c : Char) : Bool := c == ' ' || c == '\t' || c == '\n'

/-- The name of a command and what it is applied to. -/
def splitCommand (input : String) : String × String :=
  let cs := input.toList
  (String.ofList (cs.takeWhile (!endsName ·)),
    Text.trim (String.ofList (cs.dropWhile (!endsName ·))))

/-- The type of an expression that is not evaluated. -/
def typeCommand (s : Session) (source : String) : Step Outcome :=
  match Expr.parse source.toList with
  | .error e => (.error (.syntactic e), s)
  | .ok e =>
    match s.context.infer s.types e with
    | (.error e, context) => (.error (.typing e), { s with context })
    | (.ok t, context) => (.ok (.typed t), { s with context })

/-- The defined names with their types, in increasing order. -/
def listing (s : Session) : String :=
  let lines := s.types.names.filterMap fun x =>
    (s.types.get? x).map fun t => x ++ " : " ++ t.display
  if lines.isEmpty then "(no definitions)" else "\n".intercalate lines

/-- Obeys a command. -/
def command (s : Session) (input : String) : Step Outcome :=
  let (name, arg) := splitCommand input
  if name = ":type" ∨ name = ":t" then s.typeCommand arg
  else if name = ":env" then (.ok (.told s.listing), s)
  else if name = ":ast" then
    match Expr.parseProgram arg.toList with
    | .error e => (.error (.syntactic e), s)
    | .ok e => (.ok (.told e.dump), s)
  else if name = ":reset" then
    match s.reset with
    | (.error f, s) => (.error f, s)
    | (.ok _, s) => (.ok (.told "Session reset"), s)
  else if name = ":help" ∨ name = ":h" ∨ name = ":?" then (.ok (.told help), s)
  else if name = ":quit" ∨ name = ":q" then (.ok .farewell, s)
  else (.error (.unknownCommand name), s)

/-! ## Inputs -/

/-- An input that is a command rather than a statement. -/
def isCommand (input : String) : Bool := input.toList.head? == some ':'

/-- **Takes one input**: a command, a definition or an expression. -/
def eval (s : Session) (input : String) : Step Outcome :=
  let input := Text.trim input
  if isCommand input then s.command input
  else match Expr.parseProgram input.toList with
    | .error e => (.error (.syntactic e), s)
    | .ok e => s.exec e

/-- **The input may be continued on the next line.**  A blank input and a command
are not; a statement is if it fails for its early end. -/
def incomplete (input : String) : Bool :=
  let trimmed := Text.trim input
  if trimmed.isEmpty || isCommand trimmed then false
  else match Expr.parseProgram input.toList with
    | .error e => e.incomplete
    | .ok _ => false

/-! ## Completion -/

/-- A character before which no word is continued. -/
def divides (c : Char) : Bool := " \t()[]\x7b\x7d;:=".toList.contains c

/-- A line split before its last word.  A command is a word as a whole. -/
def splitWord (line : String) : String × String :=
  let cs := line.toList
  if isCommand line && !cs.any (fun c => c == ' ' || c == '\t') then ("", line)
  else
    let tail := (cs.reverse.takeWhile (!divides ·)).reverse
    (String.ofList (cs.take (cs.length - tail.length)), String.ofList tail)

/-- **The completions of the last word of a line**: commands where it is one, and
else the defined names. -/
def complete (s : Session) (line : String) : List String :=
  let (before, word) := splitWord line
  let candidates := if isCommand word then commandNames else s.types.names
  candidates.filterMap fun c =>
    if !word.isEmpty && word.toList.isPrefixOf c.toList then some (before ++ c) else none

/-! ## Traces -/

/-- The steps told since they were last taken, and the session without them. -/
def takeLog (s : Session) : List Infer.Event × Session :=
  (s.context.log, { s with context := { s.context with log := [] } })

end Session

end LetPoly
