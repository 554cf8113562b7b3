import LetPoly.Yaml.Tag

/-! # YAML tokens

A file is read as scalars and punctuation.  The depth of a block is told by its column,
so the tokens also say where a block of lines starts and ends.  A colon tells only after
the fact that what stands before it in its line is a key.  The place of whatever may
turn out to be one is therefore remembered, and the mark of a key, with the start of a
block if there is one, is put there later.
-/

namespace LetPoly.Yaml

inductive Token where
  | scalar (plain : Bool) (text : String)
  | anchor (name : String)
  | reference (name : String)
  | tag (tag : Tag)
  /-- The dash before an item of a list. -/
  | entry
  | key
  | value
  | comma
  | openList
  | closeList
  | openMap
  | closeMap
  /-- A list of lines starts. -/
  | blockList
  /-- A map of lines starts. -/
  | blockMap
  | blockEnd
  | documentStart
  | documentEnd
  /-- The version of the language that a file is written in. -/
  | version (major minor : Nat)
  /-- What a handle of tags stands for. -/
  | handle (name start : String)
  /-- What follows has no reading. -/
  | fault
deriving DecidableEq, Repr

/-- What may turn out to be a key. -/
structure Candidate where
  /-- The number of tokens before it. -/
  number : Nat
  place : Place
  /-- It stands where only a key may stand. -/
  required : Bool
deriving DecidableEq, Repr

/-- A candidate is a key only for a colon in its line that is not far away. -/
def Candidate.reaches (c : Candidate) (p : Place) : Bool :=
  c.place.line == p.line && p.index ≤ c.place.index + 1024

/-- How far a file has been read. -/
structure Scan where
  place : Place := {}
  rest : List Char
  tokens : Array Token := #[]
  /-- The columns of the open blocks, the innermost first. -/
  columns : List Nat := []
  candidate : Option Candidate := none
  /-- The candidates outside each open bracket, the innermost first. -/
  outside : List (Option Candidate) := []
  /-- A key may start here. -/
  keyAllowed : Bool := true
deriving DecidableEq, Repr

namespace Scan

def bracketed (s : Scan) : Bool := !s.outside.isEmpty

def emit (s : Scan) (t : Token) : Scan := { s with tokens := s.tokens.push t }

/-- Goes on after some characters. -/
def advance (s : Scan) (n : Nat) : Scan :=
  { s with place := (s.rest.take n).foldl Place.after s.place, rest := s.rest.drop n }

/-- Goes on where only this is left of the file. -/
def leave (s : Scan) (rest : List Char) : Scan :=
  { s with place := s.place.afterTaking s.rest rest, rest }

/-! ## Blocks and keys -/

/-- Closes the blocks right of a column, or all of them. -/
def closeBlocks (s : Scan) (column : Option Nat) : Scan :=
  if s.bracketed then s
  else
    let right := s.columns.takeWhile (fun i => column.all (· < i))
    { s with
      columns := s.columns.drop right.length
      tokens := s.tokens ++ right.map (fun _ => Token.blockEnd) }

/-- Opens a block at a column, before the token of some number, unless one is open
there. -/
def openBlock (s : Scan) (column number : Nat) (t : Token) : Scan :=
  if s.bracketed || s.columns.head?.any (column ≤ ·) then s
  else { s with columns := column :: s.columns, tokens := s.tokens.insertIdxIfInBounds number t }

/-- Opens a block here.  Nothing but blanks and marks of other blocks may stand before
it in its line. -/
def openHere (s : Scan) (t : Token) : Option Scan :=
  if s.bracketed then some s
  else if s.keyAllowed then some (s.openBlock s.place.column s.tokens.size t)
  else none

/-- Gives up the candidate. -/
def noKey (s : Scan) : Option Scan :=
  if s.candidate.any (·.required) then none else some { s with candidate := none }

/-- Remembers what starts here as a candidate, if a key may start here. -/
def maybeKey (s : Scan) : Option Scan :=
  if s.keyAllowed then do
    let s ← s.noKey
    let required := !s.bracketed && s.columns.head? == some s.place.column
    return { s with candidate := some ⟨s.tokens.size, s.place, required⟩ }
  else some s

/-! ## Between tokens -/

/-- Skips blanks, line breaks and comments: what is said is whether a key may start
after them, and where reading goes on.  A tab counts as a blank inside brackets, where
no key may start, and between two lines of comments. -/
def skipFrom (bracketed keyAllowed comment commented : Bool) (p : Place) :
    List Char → Bool × Place × List Char
  | [] => (keyAllowed, p, [])
  | c :: cs =>
    if isBreak c then
      skipFrom bracketed (keyAllowed || !bracketed) false commented (p.after c) cs
    else if comment then skipFrom bracketed keyAllowed true commented (p.after c) cs
    else if c == '#' then skipFrom bracketed keyAllowed true true (p.after c) cs
    else if c == ' ' || (c == '\t' && (bracketed || !keyAllowed || (commented && noteFollows cs))) then
      skipFrom bracketed keyAllowed false commented (p.after c) cs
    else (keyAllowed, p, c :: cs)
where
  /-- The next thing is a comment. -/
  noteFollows (cs : List Char) : Bool :=
    (cs.dropWhile (fun c => isBlank c || isBreak c)).head? == some '#'

/-- Goes to the next token. -/
def skip (s : Scan) : Scan :=
  let (keyAllowed, place, rest) := skipFrom s.bracketed s.keyAllowed false false s.place s.rest
  { s with keyAllowed, place, rest }

/-- Skips a comment in the line of a token. -/
def skipNote (s : Scan) : Scan :=
  let rest := s.rest.dropWhile isBlank
  if rest.head? == some '#' then s.leave (rest.dropWhile (!isBreak ·)) else s

/-! ## The tokens -/

/-- An opening bracket. -/
def opening (s : Scan) (t : Token) : Option Scan := do
  let s ← s.maybeKey
  let s := { s with candidate := none, outside := s.candidate :: s.outside, keyAllowed := true }
  return (s.emit t).advance 1

/-- A closing bracket. -/
def closing (s : Scan) (t : Token) : Option Scan := do
  let s ← s.noKey
  let s := match s.outside with
    | candidate :: outside => { s with candidate, outside, keyAllowed := false }
    | [] => { s with keyAllowed := false }
  return (s.emit t).advance 1

/-- A comma. -/
def separator (s : Scan) : Option Scan := do
  let s ← s.noKey
  return ({ s with keyAllowed := true }.emit .comma).advance 1

/-- The dash of an item. -/
def item (s : Scan) : Option Scan := do
  let s ← s.openHere .blockList
  let s ← s.noKey
  return ({ s with keyAllowed := true }.emit .entry).advance 1

/-- The mark of a key. -/
def keyMark (s : Scan) : Option Scan := do
  let s ← s.openHere .blockMap
  let s ← s.noKey
  return ({ s with keyAllowed := !s.bracketed }.emit .key).advance 1

/-- The colon of a value.  The candidate that it reaches is a key. -/
def valueMark (s : Scan) : Option Scan := do
  let s ← match s.candidate.filter (·.reaches s.place) with
    | some c =>
      let s := { s with tokens := s.tokens.insertIdxIfInBounds c.number .key }
      let s := s.openBlock c.place.column c.number .blockMap
      some { s with candidate := none, keyAllowed := false }
    | none => do
      let s ← s.noKey
      let s ← s.openHere .blockMap
      some { s with keyAllowed := !s.bracketed }
  return (s.emit .value).advance 1

/-- Whatever may be a key or part of one, after its first character. -/
def keyPart (s : Scan) (read : List Char → Option (Token × List Char)) : Option Scan := do
  let s ← s.maybeKey
  let (t, rest) ← read (s.rest.drop 1)
  return ({ s with keyAllowed := false }.emit t).leave rest

/-- The name after the mark of an anchor or a reference. -/
def name? (t : String → Token) (cs : List Char) : Option (Token × List Char) :=
  let name := cs.takeWhile isNameChar
  let rest := cs.dropWhile isNameChar
  let ended := atGap rest || rest.head?.any ("?:,]\x7d%@\x60".toList.contains ·)
  if !name.isEmpty && ended then some (t (String.ofList name), rest) else none

/-- A text between quotes. -/
def quoted? (inner : List Char → Option (List Inner × List Char)) (cs : List Char) :
    Option (Token × List Char) := do
  let (is, rest) ← inner cs
  return (.scalar false (String.ofList (fold {} is)), rest)

/-- A block scalar. -/
def blockText (s : Scan) (folded : Bool) : Option Scan := do
  let s ← s.noKey
  let (text, place, rest) ← blockScalar folded s.columns.head? (s.advance 1).place (s.rest.drop 1)
  return { s with keyAllowed := true, place, rest }.emit (.scalar false (String.ofList text))

/-- A text may start with this character as a plain scalar. -/
def startsPlain (bracketed : Bool) : List Char → Bool
  | [] => false
  | c :: cs =>
    !(isBlank c || isBreak c || "-?:,[]\x7b\x7d#&*!|>'\"%@\x60".toList.contains c)
      || (c == '-' && !atGap cs) || (!bracketed && (c == '?' || c == ':') && !atGap cs)

/-- A plain scalar. -/
def plainText (s : Scan) : Option Scan := do
  let s ← s.maybeKey
  let p ← plain s.bracketed (s.columns.head?.elim 0 (· + 1)) {} s.place s.rest
  let s := { s with keyAllowed := p.gap.isBroken, place := p.place, rest := p.rest }.emit
    (.scalar true (String.ofList p.text))
  return if p.gap.isBroken then s else s.skipNote

/-! ## Documents -/

/-- A line that bounds a document. -/
def documentBound (s : Scan) : Option Scan := do
  let t := if s.rest.head? == some '-' then Token.documentStart else .documentEnd
  let s ← (s.closeBlocks none).noKey
  return ({ s with keyAllowed := false }.emit t).advance 3

/-- The part of a version number at the front of a text, and the rest. -/
def versionPart? (cs : List Char) : Option (Nat × List Char) :=
  let digits := cs.takeWhile Char.isDigit
  if digits.isEmpty || 2 < digits.length then none
  else (digits? 10 digits).map (·, cs.dropWhile Char.isDigit)

/-- What a line with a percent sign says. -/
def directive? (cs : List Char) : Option (Token × List Char) := do
  let name := cs.takeWhile isNameChar
  let rest := cs.dropWhile isNameChar
  if !atGap rest then none
  let rest := rest.dropWhile isBlank
  match String.ofList name with
  | "YAML" =>
    let (major, rest) ← versionPart? rest
    match rest with
    | '.' :: rest =>
      let (minor, rest) ← versionPart? rest
      return (.version major minor, rest)
    | _ => none
  | "TAG" =>
    match rest with
    | '!' :: rest =>
      let inner := rest.takeWhile isNameChar
      let (mark, rest) ← match rest.dropWhile isNameChar with
        | '!' :: rest => some ('!' :: inner ++ ['!'], rest)
        | rest => if inner.isEmpty then some (['!'], rest) else none
      if !rest.head?.any isBlank then none
      match ← tagText (rest.dropWhile isBlank) with
      | ([], _) => none
      | (start, rest) =>
        if atGap rest then some (.handle (String.ofList mark) (String.ofList start), rest) else none
    | _ => none
  | _ => none

/-- A line with a percent sign. -/
def directive (s : Scan) : Option Scan := do
  let s ← (s.closeBlocks none).noKey
  let (t, rest) ← directive? (s.rest.drop 1)
  let rest ← endOfLine rest
  return ({ s with keyAllowed := false }.emit t).leave rest

/-! ## Reading a file -/

/-- The token that starts here, with the comment behind it. -/
def token (s : Scan) : Option Scan :=
  match s.rest with
  | [] => none
  | c :: cs =>
    if s.place.column == 0 && c == '%' then s.directive
    else if s.place.column == 0 && isBound (c :: cs) then s.documentBound
    else if c == '[' then (s.opening .openList).map skipNote
    else if c == '\x7b' then (s.opening .openMap).map skipNote
    else if c == ']' then (s.closing .closeList).map skipNote
    else if c == '\x7d' then (s.closing .closeMap).map skipNote
    else if c == ',' then s.separator.map skipNote
    else if c == '-' && atGap cs then s.item
    else if c == '?' && (s.bracketed || atGap cs) then s.keyMark.map skipNote
    else if c == ':' && (s.bracketed || atGap cs) then s.valueMark.map skipNote
    else if c == '*' then (s.keyPart (name? .reference)).map skipNote
    else if c == '&' then (s.keyPart (name? .anchor)).map skipNote
    else if c == '!' then
      (s.keyPart fun cs => (Tag.read? cs).map fun (t, rest) => (.tag t, rest)).map skipNote
    else if (c == '|' || c == '>') && !s.bracketed then s.blockText (c == '>')
    else if c == '\'' then (s.keyPart (quoted? (singleQuoted false))).map skipNote
    else if c == '"' then (s.keyPart (quoted? (doubleQuoted false))).map skipNote
    else if startsPlain s.bracketed (c :: cs) then s.plainText
    else none

/-- The tokens up to the end of the file, at most as many as the bound.  A token counts
only with the two after it, so a fault takes away the last two. -/
def run : (bound : Nat) → Scan → List Token
  | 0, s => s.tokens.toList
  | n + 1, s =>
    let next := s.skip
    let next := next.closeBlocks (some next.place.column)
    if next.rest.isEmpty then
      match (next.closeBlocks none).noKey with
      | some s => s.tokens.toList
      | none => broken s
    else match next.token with
      | some next => run n next
      | none => broken s
where
  /-- The tokens that a fault leaves. -/
  broken (s : Scan) : List Token := (s.tokens.take (s.tokens.size - 2)).toList ++ [.fault]

end Scan

/-- **The tokens of a text.** -/
def scan (s : String) : List Token :=
  let cs := match s.toList with
    | '\ufeff' :: cs => cs
    | cs => cs
  if cs.all isAllowed then
    let cs := unifyBreaks cs
    Scan.run (cs.length + 1) { rest := cs }
  else [.fault]

end LetPoly.Yaml
