import LetPoly.CommandLine.Invocation
import LetPoly.Dependency
import LetPoly.Script.Compile
import LetPoly.Session.Dialogue
import LetPoly.Text.Lines

/-! # Carrying out an invocation

What a call of the command line says, on the two channels, and how it fails.  What
was said before a failure stays said.  All that a call reads is given beforehand as
its **surroundings**, so that carrying it out is a function.
-/

namespace LetPoly

/-- What a call finds around it. -/
structure Surroundings where
  input : String := ""
  home : String := ""
  /-- The text of a file. -/
  file : String → Except FileFault String

/-- Work that speaks and may fail. -/
abbrev Work := ExceptT Failure (StateM Speech)

namespace Work

/-- Says something more. -/
def say (s : Speech) : Work Unit := modify (· ++ s)

/-- Takes a result whose failure is met at a stage. -/
def during {α : Type} (stage : Stage) : Except Failure α → Work α
  | .ok a => pure a
  | .error f => throw (.within stage f)

end Work

/-- The version that the program reports. -/
def versionName : String := "dev"

namespace Invocation

/-! ## Programs -/

/-- The text of the program of a call. -/
def text (w : Surroundings) : Source → Except Failure String
  | .inline s => .ok s
  | .input => .ok w.input
  | .file path => (w.file path).mapError fun fault => .within .readingSource (.unreadable path fault)

/-- The statements of a program, of which there is at least one. -/
def statements (w : Surroundings) (i : Invocation) : Work (List Expr) := do
  let text ← text w i.source
  let stage := Stage.program i.source.name
  let stmts ← Work.during stage ((Expr.parseStatements text.toList).mapError .syntactic)
  if stmts.isEmpty then throw (.within stage .noStatements)
  if i.options.dumpTree then
    Work.say { err := String.join (stmts.map fun e => e.dump ++ "\n") }
  return stmts

/-- What is known before a statement is checked. -/
structure Known where
  context : Context := {}
  types : TypeEnv := .empty

/-- Checks a statement. -/
def checkOne (k : Known) (e : Expr) : Except Failure Ty × Known :=
  match e.validate with
  | .error m => (.error (.misplaced m), k)
  | .ok () =>
    match e.definition? with
    | some d =>
      match k.context.define k.types (some d) with
      | (.ok (types, t), context) => (.ok t, { context, types })
      | (.error err, context) => (.error (.typing err), { k with context })
    | none =>
      match k.context.infer k.types e with
      | (.ok t, context) => (.ok t, { k with context })
      | (.error err, context) => (.error (.typing err), { k with context })

/-- Checks statements, the first of which has a number, and reports their types. -/
def checkFrom (i : Invocation) (report : Expr → Ty → Work Unit) (k : Known) (number : Nat) :
    List Expr → Work Unit
  | [] => pure ()
  | e :: es => do
    let (result, k) := checkOne k e
    Work.say (.traced i.options.trace k.context.log)
    let t ← Work.during (.program i.source.name) (result.mapError (.within (.statement number)))
    report e t
    checkFrom i report { k with context := { k.context with log := [] } } (number + 1) es

/-- Checks the statements of a program in turn. -/
def checkAll (i : Invocation) (report : Expr → Ty → Work Unit) (stmts : List Expr) : Work Unit :=
  checkFrom i report {} 1 stmts

/-- How the type of a statement is reported. -/
def typeLine (e : Expr) (t : Ty) : String :=
  match e.definition? with
  | some d => d.pat.text ++ " : " ++ t.display
  | none => t.display

def check (w : Surroundings) (i : Invocation) : Work Unit := do
  checkAll i (fun e t => Work.say (.said (typeLine e t))) (← i.statements w)

/-- Executes statements in a session, the first of which has a number. -/
def runFrom (i : Invocation) (s : Session) (number : Nat) : List Expr → Work Unit
  | [] => pure ()
  | e :: es => do
    let (result, s) := s.exec e
    let (log, s) := s.takeLog
    Work.say (.traced i.options.trace log)
    let r ← Work.during (.program i.source.name) (result.mapError (.within (.statement number)))
    if !e.isDefinition then Work.say (.said r.text)
    runFrom i s (number + 1) es

def run (w : Surroundings) (i : Invocation) : Work Unit := do
  runFrom i {} 1 (← i.statements w)

/-- The definitions of a program and the expression at its end, if it has one.  The
first statement has a number. -/
def parts (number : Nat) : List Expr → Except Failure (List Definition × Option Expr)
  | [] => .ok ([], none)
  | e :: es =>
    match e.definition? with
    | some d => do
      let (defs, result) ← parts (number + 1) es
      return (d :: defs, result)
    | none =>
      if es.isEmpty then .ok ([], some e)
      else .error (.within (.statement number) .earlyExpression)

def compile (w : Surroundings) (i : Invocation) : Work Unit := do
  let stmts ← i.statements w
  checkAll i (fun _ _ => pure ()) stmts
  let stage := Stage.program i.source.name
  let kept ← if i.options.prune then Work.during stage ((prune stmts).mapError .analyzing)
    else pure stmts
  if kept.length < stmts.length && i.options.trace then
    Work.say (.warned ("polyval: pruned " ++
      Text.Decimal.natural (stmts.length - kept.length) ++ " unused definitions"))
  let (defs, result) ← Work.during stage (parts 1 kept)
  let program ← Work.during stage ((Script.compileProgram defs result).mapError .compiling)
  Work.say { out := program.text }

/-! ## Dialogues -/

/-- The settings of a dialogue, and its session with the prelude loaded. -/
def start (w : Surroundings) (i : Invocation) : Work (Settings × Session) := do
  let settings ← Settings.load w.file (i.settingsPath w.home)
  let (result, session) := Session.load {} settings.prelude
  let (log, session) := session.takeLog
  Work.say (.traced i.options.trace log)
  Work.during .loadingPrelude result
  return (settings, session)

/-- A dialogue over the lines of the input. -/
def repl (w : Surroundings) (i : Invocation) : Work Unit := do
  let (_, session) ← i.start w
  let manner : Manner := { trace := i.options.trace }
  let (lines, tooLong) := Text.boundedLines w.input
  if tooLong then
    let (speech, d) := Dialogue.lines manner { session } lines
    Work.say speech
    if !d.ended then throw .longLine
  else
    Work.say (Dialogue.run manner { session } lines).1

/-- **Carries out a call.** -/
def perform (w : Surroundings) (i : Invocation) : Work Unit :=
  match i.command with
  | .check => i.check w
  | .run => i.run w
  | .compile => i.compile w
  | .repl => i.repl w
  | .version => Work.say (.said ("polyval version " ++ versionName))

end Invocation

/-- **What a call with these arguments says, and how it fails.** -/
def commandLine (w : Surroundings) (args : List String) : Speech × Option Failure :=
  match Invocation.parse args with
  | .error e => ({}, some (.usage e))
  | .ok i =>
    match (ExceptT.run (i.perform w)).run {} with
    | (.ok (), speech) => (speech, none)
    | (.error f, speech) => (speech, some f)

end LetPoly
