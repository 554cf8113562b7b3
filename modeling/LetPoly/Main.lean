import LetPoly.CommandLine.Run
import LetPoly.Text.Utf8

/-! # The program

The outermost layer: it hands the arguments, the files that a call reads and the input
to `commandLine`, and writes out what is said.  At a terminal a dialogue is held line
by line instead, with prompts.
-/

namespace LetPoly.Main

/-- Why the system could not read a file.  A wrong type is met on the way to the file
if the error names the path, and in reading it otherwise. -/
def fault : IO.Error → FileFault
  | .noFileOrDirectory .. => .absent
  | .inappropriateType (some _) .. => .notDirectory
  | .inappropriateType none .. => .directory
  | .permissionDenied .. => .denied
  | e => .other (toString e)

/-- The text in a file. -/
def readFile (path : String) : IO (Except FileFault String) := do
  try
    let bytes ← IO.FS.readBinFile path
    return .ok (String.ofList (Text.decode bytes.toList))
  catch e => return .error (fault e)

/-- All that is left of a stream. -/
partial def readAll (stream : IO.FS.Stream) (before : ByteArray) : IO ByteArray := do
  let chunk ← stream.read 65536
  if chunk.isEmpty then return before else readAll stream (before ++ chunk)

/-- Writes out what was said. -/
def utter (s : Speech) : IO Unit := do
  IO.print s.out
  (← IO.getStdout).flush
  IO.eprint s.err

/-- Holds a dialogue at a terminal. -/
partial def converse (settings : Settings) (m : Manner) (d : Dialogue) : IO Unit := do
  IO.print (if d.pending.isSome then settings.continuationPrompt else settings.prompt)
  (← IO.getStdout).flush
  let line ← (← IO.getStdin).getLine
  if line.isEmpty then utter (d.finish m).1
  else
    let line := (Text.boundedLines line).1.headD ""
    let (speech, d) := d.line m line
    utter speech
    if !d.ended then converse settings m d

/-- Starts a dialogue at a terminal. -/
def atTerminal (w : Surroundings) (i : Invocation) : IO (Option Failure) := do
  match (ExceptT.run (i.start w)).run {} with
  | (.error f, speech) =>
    utter speech
    return some f
  | (.ok (settings, session), speech) =>
    utter speech
    IO.println ("polyval " ++ versionName ++ " - type :help for help")
    let color := settings.useColor (← (← IO.getStdout).isTty)
    converse settings { color, trace := i.options.trace } { session }
    return none

/-- Carries out a call, reading what it needs. -/
def call (args : List String) : IO (Option Failure) := do
  match Invocation.parse args with
  | .error e => return some (.usage e)
  | .ok i =>
    let home := (← IO.getEnv "HOME").getD ""
    let texts ← (i.paths home).mapM fun path => return (path, ← readFile path)
    let file := fun path => (texts.lookup path).getD (.error .absent)
    let stdin ← IO.getStdin
    if i.command == .repl && (← stdin.isTty) then atTerminal { home, file } i
    else
      let wanted := i.command == .repl || (i.command != .version && i.source == .input)
      let bytes ← if wanted then readAll stdin .empty else pure .empty
      let input := String.ofList (Text.decode bytes.toList)
      let (speech, error) := commandLine { input, home, file } args
      utter speech
      return error

end LetPoly.Main

/-- Runs the program.  A failure is reported and makes the call fail. -/
def main (args : List String) : IO UInt32 := do
  match ← LetPoly.Main.call args with
  | none => return 0
  | some f =>
    IO.eprintln ("Error: " ++ f.message)
    return 1
