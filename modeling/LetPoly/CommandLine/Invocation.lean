import LetPoly.CommandLine.Flag
import LetPoly.Settings.File

/-! # Invocations

A call of the command line names a command, gives it flags and at most one file.
The first word that is not a flag or the value of one is the command; a call without
a command runs its file, or starts a dialogue if it has neither a file nor a program
among its flags.
-/

namespace LetPoly

inductive Command where
  | check
  | run
  | compile
  | repl
  | version
deriving DecidableEq, Repr

namespace Command

def all : List Command := [.check, .run, .compile, .repl, .version]

def name : Command → String
  | .check => "check"
  | .run => "run"
  | .compile => "compile"
  | .repl => "repl"
  | .version => "version"

/-- The flags that a command knows. -/
def flags : Command → List Flag
  | .compile => .prune :: Flag.common
  | _ => Flag.common

/-- A command that may be given a file. -/
def takesFile : Command → Bool
  | .check | .run | .compile => true
  | .repl | .version => false

end Command

/-- Where a program comes from. -/
inductive Source where
  | inline (text : String)
  | file (path : String)
  | input
deriving DecidableEq, Repr

/-- How messages name a source. -/
def Source.name : Source → String
  | .inline _ => "<expr>"
  | .file path => path
  | .input => "<stdin>"

structure Invocation where
  command : Command
  options : Options
  /-- The file that was given. -/
  file : Option String
deriving DecidableEq, Repr

namespace Invocation

/-! ## Reading the arguments -/

/-- While the command is looked for, an argument that takes the next one as its value:
a long flag that is not known as a switch, or a letter alone. -/
def takesNext (arg : String) : Bool :=
  match arg.toList with
  | '-' :: '-' :: long =>
    !long.contains '=' && !Flag.common.any fun f => f.isSwitch && f.name.toList == long
  | ['-', c] => c != '=' && c.utf8Size == 1
  | _ => false

/-- An argument that is not a flag. -/
def isWord (arg : String) : Bool := !arg.isEmpty && arg.toList.head? != some '-'

/-- The first word among the arguments.  A flag that takes the last argument as its
value ends the search. -/
def firstWord? : List String → Option String
  | [] => none
  | arg :: args =>
    if arg == "--" then none
    else if takesNext arg then
      match args with
      | _ :: next :: args => firstWord? (next :: args)
      | _ => none
    else if isWord arg then some arg
    else firstWord? args

/-- The arguments without the first one that is this word and not the value of a
flag. -/
def dropWord (word : String) : List String → List String
  | [] => []
  | arg :: args =>
    if arg == "--" then arg :: args
    else if takesNext arg then
      match args with
      | [] => [arg]
      | value :: args => arg :: value :: dropWord word args
    else if arg == word then args
    else arg :: dropWord word args

/-- The command of a call and the arguments without it. -/
def route (args : List String) : Option Command × List String :=
  match firstWord? args with
  | none => (none, args)
  | some word =>
    match Command.all.find? (·.name == word) with
    | some c => (some c, dropWord word args)
    | none => (none, args)

/-- **Reads the arguments of a call.** -/
def parse (args : List String) : Except UsageError Invocation := do
  let (named, args) := route args
  let known := (named.map Command.flags).getD Flag.common
  let (options, words) ← Options.read known {} [] args
  let command := named.getD (if words.isEmpty && options.expr.isEmpty then .repl else .run)
  if (named.map Command.takesFile).getD true then
    if 1 < words.length then throw (.tooMany 1 words.length)
  else if let word :: _ := words then
    throw (.unexpected word ("polyval " ++ command.name))
  return { command, options, file := words.head? }

/-- Where the program of a call comes from.  A dash stands for the input. -/
def source (i : Invocation) : Source :=
  if !i.options.expr.isEmpty then .inline i.options.expr
  else match i.file with
    | some path => if path == "-" then .input else .file path
    | none => .input

/-- The path of the settings of a call. -/
def settingsPath (i : Invocation) (home : String) : String :=
  if i.options.config.isEmpty then Settings.defaultPath home else i.options.config

/-- The files that a call reads. -/
def paths (i : Invocation) (home : String) : List String :=
  match i.command, i.source with
  | .version, _ => []
  | .repl, _ => [i.settingsPath home]
  | _, .file path => [path]
  | _, _ => []

end Invocation

end LetPoly
