import LetPoly.Token.Lexer

/-! # Reading rows of tokens

A reader takes what it needs from the front of a row of tokens and leaves the
rest, or fails with a syntax error.  A row ends with a token of kind `eof`, which
no reader takes; running past it would be an error of its own, `pastEnd`.

Readers of nested phrases are given the reader of the phrases inside them and a
bound on the length of their loops.  The readers of a whole source choose the
bound larger than the number of tokens, so that it is never reached.
-/

namespace LetPoly

/-- A reader of a row of tokens. -/
abbrev Reader := StateT (List Token) (Except SyntaxError)

namespace Reader

/-- Fails at a token. -/
def failAt {α : Type} (t : Token) (cause : SyntaxError.Cause) : Reader α :=
  throw ⟨t.pos, cause⟩

/-- The bound is reached. -/
def tooDeep {α : Type} : Reader α := throw ⟨.start, .tooDeep⟩

/-- The next token, which is not taken. -/
def peek : Reader Token := fun ts =>
  match ts with
  | [] => .error ⟨.start, .pastEnd⟩
  | t :: _ => .ok (t, ts)

/-- Takes the next token, unless it is the last one. -/
def next : Reader Token := fun ts =>
  match ts with
  | [] => .error ⟨.start, .pastEnd⟩
  | t :: rest => .ok (t, if t.kind = .eof then ts else rest)

/-- The token after the next one, or the next one if it is the last. -/
def peekSecond : Reader Token := fun ts =>
  match ts with
  | [] => .error ⟨.start, .pastEnd⟩
  | [t] => .ok (t, ts)
  | _ :: u :: _ => .ok (u, ts)

/-- Takes the next token if it is of the kind. -/
def accept? (k : Token.Kind) : Reader (Option Token) := do
  if (← peek).kind = k then
    return some (← next)
  else
    return none

/-- Takes the next token if it is of the kind, and tells whether it was. -/
def accept (k : Token.Kind) : Reader Bool := return (← accept? k).isSome

/-- Takes a token of the kind, or fails. -/
def expect (k : Token.Kind) (place : SyntaxError.Place) : Reader Token := do
  let t ← peek
  if t.kind = k then
    next
  else
    failAt t (.expected k place t)

/-- Checks that only the end of the input is left. -/
def expectEnd : Reader Unit := do
  let t ← peek
  if t.kind = .eof then
    return ()
  else
    failAt t (.trailing t)

/-- Goes on from a value to the next one, as long as there is a next one. -/
def extend {α : Type} (step : α → Reader (Option α)) : Nat → α → Reader α
  | 0, _ => tooDeep
  | n + 1, a => do
    match ← step a with
    | some b => extend step n b
    | none => return a

/-- Items up to a closing brace, with the brace.  Semicolons separate the items, and
one may follow the last. -/
def items {α : Type} (item : Reader α) (place : SyntaxError.Place) : Nat → Reader (List α × Token)
  | 0 => tooDeep
  | n + 1 => do
    match ← accept? .rbrace with
    | some brace => return ([], brace)
    | none =>
      let a ← item
      if ← accept .semicolon then
        let (as, brace) ← items item place n
        return (a :: as, brace)
      else
        let brace ← expect .rbrace place
        return ([a], brace)

/-- The value of an integer token. -/
def numeral (t : Token) : Reader Int64 :=
  match Text.Decimal.unsigned? t.literal with
  | some n => return n
  | none => failAt t (.outOfRange t.literal)

/-- Reads a whole source.  A lexical fault comes before all others.  The reader is
told a bound larger than the number of tokens. -/
def readAll {α : Type} (r : Nat → Reader α) (source : List Char) : Except SyntaxError α :=
  let s := Token.scan source
  match s.fault with
  | some e => throw e
  | none => (do let a ← r (s.tokens.length + 1); expectEnd; return a : Reader α).run' s.tokens

end Reader

end LetPoly
