import LetPoly.Session.Basic

/-! # Dialogues

A dialogue holds a session over the lines of its input.  Lines are gathered until
they make a complete input, which is then given to the session; what comes of it is
said on one of two channels, failures and traces on the second.  A dialogue ends
with the command `:quit` or with its input.
-/

namespace LetPoly

/-- The choices of a dialogue. -/
structure Manner where
  /-- Types and failures are set off by colour. -/
  color : Bool := false
  /-- The steps of inference are told. -/
  trace : Bool := false

/-- What is said. -/
structure Speech where
  out : String := ""
  err : String := ""

namespace Speech

/-- One speech after another. -/
def append (a b : Speech) : Speech := ⟨a.out ++ b.out, a.err ++ b.err⟩

instance : Append Speech := ⟨append⟩

/-- A line on the first channel. -/
def said (line : String) : Speech := { out := line ++ "\n" }

/-- A line on the second channel. -/
def warned (line : String) : Speech := { err := line ++ "\n" }

/-- The steps of inference, a line each, if they are to be told. -/
def traced (trace : Bool) (log : List Infer.Event) : Speech :=
  if trace then { err := String.join (log.map fun e => "polyval: " ++ e.message ++ "\n") } else {}

end Speech

namespace Manner

/-- The text between the codes of a terminal that set its colour and unset it. -/
def paint (m : Manner) (code : String) (s : String) : String :=
  if m.color then "\x1b[" ++ code ++ "m" ++ s ++ "\x1b[0m" else s

def red (m : Manner) : String → String := m.paint "31"

def blue (m : Manner) : String → String := m.paint "94"

end Manner

structure Dialogue where
  session : Session := {}
  /-- The lines of an input that is not complete. -/
  pending : Option String := none
  /-- The inputs given to the session, oldest first. -/
  inputs : List String := []
  /-- The dialogue has been left. -/
  ended : Bool := false

namespace Dialogue

/-- Gives an input to the session.  A blank one is passed over. -/
def submit (m : Manner) (d : Dialogue) (input : String) : Speech × Dialogue :=
  let d := { d with pending := none }
  if (Text.trim input).isEmpty then ({}, d)
  else
    let (result, session) := d.session.eval input
    let (log, session) := session.takeLog
    let d := { d with session, inputs := d.inputs ++ [input] }
    let traced := Speech.traced m.trace log
    match result with
    | .error f => (traced ++ .warned (m.red f.message), d)
    | .ok r => (traced ++ .said (r.render m.blue), { d with ended := r matches .farewell })

/-- **Takes a line.**  It goes on with the lines that are pending. -/
def line (m : Manner) (d : Dialogue) (s : String) : Speech × Dialogue :=
  let input := match d.pending with
    | none => s
    | some before => before ++ "\n" ++ s
  if Session.incomplete input then ({}, { d with pending := some input })
  else d.submit m input

/-- **Takes the end of the input.**  What is pending is given to the session as it
stands. -/
def finish (m : Manner) (d : Dialogue) : Speech × Dialogue :=
  match d.pending with
  | none => ({}, { d with ended := true })
  | some input =>
    let (speech, d) := d.submit m input
    (speech, { d with ended := true })

/-- Takes lines until none is left or the dialogue is. -/
def lines (m : Manner) (d : Dialogue) : List String → Speech × Dialogue
  | [] => ({}, d)
  | s :: rest =>
    let (first, d) := d.line m s
    if d.ended then (first, d)
    else
      let (later, d) := d.lines m rest
      (first ++ later, d)

/-- **Takes lines to their end**, or until the dialogue is left. -/
def run (m : Manner) (d : Dialogue) (input : List String) : Speech × Dialogue :=
  let (speech, d) := d.lines m input
  if d.ended then (speech, d)
  else
    let (last, d) := d.finish m
    (speech ++ last, d)

end Dialogue

end LetPoly
