import LetPoly.Text.Decimal
import LetPoly.Text.Quoted

/-! # Flags

A flag is an argument that starts with a dash.  Long flags take their value after an
equals sign or, unless they are switches, from the next argument; the short flag takes
it from what follows its letter too.  Two dashes end the flags, and arguments that are
no flags may stand between them.
-/

namespace LetPoly

inductive Flag where
  | config
  | expr
  | trace
  | dumpTree
  | prune
deriving DecidableEq, Repr

namespace Flag

def name : Flag → String
  | .config => "config"
  | .expr => "expr"
  | .trace => "trace"
  | .dumpTree => "dump-ast"
  | .prune => "prune"

/-- The letter of the short form. -/
def letter? : Flag → Option Char
  | .expr => some 'e'
  | _ => none

/-- A flag that is on or off, and on if no value is given. -/
def isSwitch : Flag → Bool
  | .config | .expr => false
  | .trace | .dumpTree | .prune => true

/-- The flags of every command. -/
def common : List Flag := [.config, .expr, .trace, .dumpTree]

/-- How a complaint names the flag. -/
def title (f : Flag) : String :=
  match f.letter? with
  | some c => "-" ++ String.ofList [c] ++ ", --" ++ f.name
  | none => "--" ++ f.name

end Flag

/-- What is wrong with the arguments of a call. -/
inductive UsageError where
  | malformed (arg : String)
  | unknownFlag (name : String)
  | unknownLetter (letter : Char) (letters : String)
  | noValue (name : String)
  | noValueAfter (letter : Char) (letters : String)
  | badValue (value : String) (flag : Flag)
  | tooMany (limit received : Nat)
  | unexpected (arg command : String)
deriving DecidableEq, Repr

def UsageError.message : UsageError → String
  | .malformed arg => "bad flag syntax: " ++ arg
  | .unknownFlag name => "unknown flag: --" ++ name
  | .unknownLetter c letters =>
    "unknown shorthand flag: " ++ Text.escapedChar c ++ " in -" ++ letters
  | .noValue name => "flag needs an argument: --" ++ name
  | .noValueAfter c letters =>
    "flag needs an argument: " ++ Text.escapedChar c ++ " in -" ++ letters
  | .badValue value flag =>
    "invalid argument " ++ Text.escaped value ++ " for " ++ Text.escaped flag.title ++
      " flag: strconv.ParseBool: parsing " ++ Text.escaped value ++ ": invalid syntax"
  | .tooMany limit received =>
    "accepts at most " ++ Text.Decimal.natural limit ++ " arg(s), received " ++
      Text.Decimal.natural received
  | .unexpected arg command =>
    "unknown command " ++ Text.escaped arg ++ " for " ++ Text.escaped command

/-- The values of the flags. -/
structure Options where
  config : String := ""
  expr : String := ""
  trace : Bool := false
  dumpTree : Bool := false
  prune : Bool := false
deriving DecidableEq, Repr

namespace Options

/-- The truth value of a word. -/
def truth? (s : String) : Option Bool :=
  if ["1", "t", "T", "TRUE", "true", "True"].contains s then some true
  else if ["0", "f", "F", "FALSE", "false", "False"].contains s then some false
  else none

/-- Gives a switch a value. -/
def switch (flag : Flag) (value : String) : Except UsageError Bool :=
  match truth? value with
  | some b => .ok b
  | none => .error (.badValue value flag)

/-- Gives a flag a value, in place of an earlier one. -/
def set (o : Options) (value : String) : Flag → Except UsageError Options
  | .config => .ok { o with config := value }
  | .expr => .ok { o with expr := value }
  | .trace => do return { o with trace := ← switch .trace value }
  | .dumpTree => do return { o with dumpTree := ← switch .dumpTree value }
  | .prune => do return { o with prune := ← switch .prune value }

/-- A long flag split at its first equals sign. -/
def splitValue (cs : List Char) : String × Option String :=
  (String.ofList (cs.takeWhile (· != '=')),
    match cs.dropWhile (· != '=') with
    | _ :: value => some (String.ofList value)
    | [] => none)

/-- The character with the code of the first byte of a text. -/
def firstByte (s : String) : Char :=
  match s.toUTF8.toList with
  | b :: _ => Char.ofNat b.toNat
  | [] => '\x00'

/-- **Reads the flags among some arguments**, of those that are known.  Given are the
options and the words from the arguments before. -/
def read (known : List Flag) (o : Options) (words : List String) :
    List String → Except UsageError (Options × List String)
  | [] => .ok (o, words)
  | arg :: args =>
    match arg.toList with
    | ['-', '-'] => .ok (o, words ++ args)
    | '-' :: '-' :: long =>
      if long.head? == some '-' || long.head? == some '=' then .error (.malformed arg)
      else
        let (name, value?) := splitValue long
        match known.find? (·.name == name), value? with
        | none, _ => .error (.unknownFlag name)
        | some flag, some value => do read known (← o.set value flag) words args
        | some flag, none =>
          if flag.isSwitch then do read known (← o.set "true" flag) words args
          else match args with
            | value :: args => do read known (← o.set value flag) words args
            | [] => .error (.noValue name)
    | '-' :: c :: more =>
      let letters := String.ofList (c :: more)
      -- A group of letters with this start is left to other readers of the arguments.
      if "test.".toList.isPrefixOf (c :: more) then read known o words args
      else match known.find? (·.letter? == some c), more with
        | none, _ => .error (.unknownLetter (firstByte letters) letters)
        | some flag, '=' :: v :: value => do
          read known (← o.set (String.ofList (v :: value)) flag) words args
        | some flag, v :: value => do
          read known (← o.set (String.ofList (v :: value)) flag) words args
        | some flag, [] =>
          match args with
          | value :: args => do read known (← o.set value flag) words args
          | [] => .error (.noValueAfter c letters)
    | _ => read known o (words ++ [arg]) args

end Options

end LetPoly
