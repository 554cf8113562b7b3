import LetPoly.Yaml.Text

/-! # YAML scalars

The ways of writing a text: plain, between single or double quotes, and as a block of
lines below a bar or an angle bracket.
-/

namespace LetPoly.Yaml

/-! ## Plain scalars -/

/-- A plain scalar as it was read. -/
structure Plain where
  text : List Char := []
  /-- The gap after the text, which was read too. -/
  gap : Gap := {}
  place : Place
  rest : List Char

/-- **Goes on with a plain scalar** after some gap.  The scalar ends before a colon that
a gap follows, before a comment, before a line that stands left of the least column or
bounds a document, and inside brackets before punctuation, where columns do not count.
A tab left of the least column is a fault. -/
def plain (bracketed : Bool) (least : Nat) (gap : Gap) (p : Place) : List Char → Option Plain
  | [] => some { gap, place := p, rest := [] }
  | c :: cs =>
    if isBlank c then
      if gap.isBroken && p.column < least && c == '\t' then none
      else plain bracketed least (gap.blank c) (p.after c) cs
    else if isBreak c then plain bracketed least (gap.lineBreak c) (p.after c) cs
    else if !gap.isEmpty && ((!bracketed && p.column < least)
        || (p.column == 0 && isBound (c :: cs)) || c == '#')
        || (c == ':' && atGap cs) || (bracketed && (isBracketing c || c == '?')) then
      some { gap, place := p, rest := c :: cs }
    else do
      let r ← plain bracketed least {} (p.after c) cs
      return { r with text := gap.text ++ c :: r.text }

/-! ## Quoted scalars -/

/-- A part of a quoted text. -/
inductive Inner where
  /-- A character that may belong to a gap. -/
  | bare (c : Char)
  | escaped (c : Char)
  /-- A line break that is taken back. -/
  | join

/-- Folds the gaps of a quoted text, after some gap. -/
def fold (gap : Gap) : List Inner → List Char
  | [] => gap.text
  | .escaped c :: is => gap.text ++ c :: fold {} is
  | .join :: is => gap.text ++ fold { joined := true } is
  | .bare c :: is =>
    if isBlank c then fold (gap.blank c) is
    else if isBreak c then fold (gap.lineBreak c) is
    else gap.text ++ c :: fold {} is

/-- A text up to its closing single quote, and the rest.  Two quotes stand for one, and
no line may bound a document; `fresh` says whether a line starts here. -/
def singleQuoted (fresh : Bool) : List Char → Option (List Inner × List Char)
  | [] => none
  | c :: cs =>
    if fresh && isBound (c :: cs) then none
    else if c == '\'' then
      match cs with
      | '\'' :: cs => do
        let (is, rest) ← singleQuoted false cs
        return (.escaped '\'' :: is, rest)
      | _ => some ([], cs)
    else do
      let (is, rest) ← singleQuoted (isBreak c) cs
      return (.bare c :: is, rest)

/-- The value of a digit of base sixteen. -/
def hexValue? (c : Char) : Option Nat :=
  if '0' ≤ c && c ≤ '9' then some (c.toNat - '0'.toNat)
  else if 'a' ≤ c && c ≤ 'f' then some (c.toNat - 'a'.toNat + 10)
  else if 'A' ≤ c && c ≤ 'F' then some (c.toNat - 'A'.toNat + 10)
  else none

/-- The character with a code in base sixteen. -/
def coded? (digits : List Char) : Option Char := do
  let values ← digits.mapM hexValue?
  let n := values.foldl (fun n d => 16 * n + d) 0
  if n.isValidChar then some (Char.ofNat n) else none

/-- The character that a letter after a backslash stands for. -/
def escape? : Char → Option Char
  | '0' => some '\x00'
  | 'a' => some '\x07'
  | 'b' => some '\x08'
  | 't' | '\t' => some '\t'
  | 'n' => some '\n'
  | 'v' => some '\x0b'
  | 'f' => some '\x0c'
  | 'r' => some '\r'
  | 'e' => some '\x1b'
  | ' ' => some ' '
  | '"' => some '"'
  | '\'' => some '\''
  | '\\' => some '\\'
  | 'N' => some '\u0085'
  | '_' => some '\u00a0'
  | 'L' => some '\u2028'
  | 'P' => some '\u2029'
  | _ => none

/-- An escaped character before what follows it. -/
def escapedBefore (c : Option Char) (after : Option (List Inner × List Char)) :
    Option (List Inner × List Char) := do
  let c ← c
  let (is, rest) ← after
  return (.escaped c :: is, rest)

/-- A text up to its closing double quote, and the rest.  A backslash takes back the
line break after it, and no line may bound a document; `fresh` says whether a line
starts here. -/
def doubleQuoted (fresh : Bool) : List Char → Option (List Inner × List Char)
  | [] => none
  | c :: cs =>
    if fresh && isBound (c :: cs) then none
    else if c == '"' then some ([], cs)
    else if c == '\\' then
      match cs with
      | 'x' :: d₁ :: d₂ :: cs => escapedBefore (coded? [d₁, d₂]) (doubleQuoted false cs)
      | 'u' :: d₁ :: d₂ :: d₃ :: d₄ :: cs =>
        escapedBefore (coded? [d₁, d₂, d₃, d₄]) (doubleQuoted false cs)
      | 'U' :: d₁ :: d₂ :: d₃ :: d₄ :: d₅ :: d₆ :: d₇ :: d₈ :: cs =>
        escapedBefore (coded? [d₁, d₂, d₃, d₄, d₅, d₆, d₇, d₈]) (doubleQuoted false cs)
      | e :: cs =>
        if isBreak e then do
          let (is, rest) ← doubleQuoted true cs
          return (.join :: is, rest)
        else escapedBefore (escape? e) (doubleQuoted false cs)
      | [] => none
    else do
      let (is, rest) ← doubleQuoted (isBreak c) cs
      return (.bare c :: is, rest)

/-! ## Block scalars -/

/-- What becomes of the line breaks at the end of a block. -/
inductive Chomp where
  | strip
  | clip
  | keep
deriving DecidableEq, Repr

/-- The marks after the sign of a block: the chomping and the number of columns that the
block is indented by, in either order. -/
def blockMarks (cs : List Char) : Option (Chomp × Option Nat × List Char) :=
  let chomp? : List Char → Chomp × List Char
    | '+' :: cs => (.keep, cs)
    | '-' :: cs => (.strip, cs)
    | cs => (.clip, cs)
  let digit? : List Char → Option (Option Nat × List Char)
    | c :: cs =>
      if c == '0' then none
      else if c.isDigit then some (some (c.toNat - '0'.toNat), cs)
      else some (none, c :: cs)
    | [] => some (none, [])
  match chomp? cs with
  | (.clip, cs) => do
    let (width, cs) ← digit? cs
    let (chomp, cs) := if width.isSome then chomp? cs else (.clip, cs)
    return (chomp, width, cs)
  | (chomp, cs) => do
    let (width, cs) ← digit? cs
    return (chomp, width, cs)

/-- The rest after the blanks and the comment that end a line, and the line break. -/
def endOfLine (cs : List Char) : Option (List Char) :=
  let cs := cs.dropWhile isBlank
  let cs := if cs.head? == some '#' then cs.dropWhile (!isBreak ·) else cs
  match cs with
  | [] => some []
  | c :: cs => if isBreak c then some cs else none

/-- The empty lines of a block and the blanks before its next line. -/
structure Margin where
  breaks : List Char := []
  /-- The rightmost column that was reached. -/
  deepest : Nat := 0
  place : Place
  rest : List Char

/-- Reads a margin, whose blanks stand left of a column, if one is given. -/
def margin (column : Option Nat) (breaks : List Char) (deepest : Nat) (p : Place) :
    List Char → Option Margin
  | [] => some ⟨breaks, max deepest p.column, p, []⟩
  | c :: cs =>
    let inside := column.all (p.column < ·)
    if c == ' ' && inside then margin column breaks deepest (p.after c) cs
    else if c == '\t' && inside then none
    else if isBreak c then margin column (breaks ++ [c]) (max deepest p.column) (p.after c) cs
    else some ⟨breaks, max deepest p.column, p, c :: cs⟩

/-- The lines of a block at a column.  Given are the text so far, the break after its
last line, whether that line started with a blank, and the margin before the next one. -/
def blockLines (folded : Bool) (chomp : Chomp) (column : Nat) :
    (bound : Nat) → (text last : List Char) → (indented : Bool) → Margin →
      Option (List Char × Place × List Char)
  | 0, _, _, _, _ => none
  | n + 1, text, last, indented, m =>
    match m.rest with
    | c :: _ =>
      if m.place.column == column then
        let blank := isBlank c
        let first :=
          if folded && !indented && !blank && last == ['\n'] then
            if m.breaks.isEmpty then [' '] else []
          else last
        let line := m.rest.takeWhile (!isBreak ·)
        let after := m.rest.dropWhile (!isBreak ·)
        let p := line.foldl Place.after m.place
        let text := text ++ first ++ m.breaks ++ line
        match after with
        | [] => some (text, p, [])
        | b :: rest => do
          let next ← margin (some column) [] 0 (p.after b) rest
          blockLines folded chomp column n text [b] blank next
      else some (ending text last m)
    | [] => some (ending text last m)
where
  /-- The text with the line breaks that the chomping leaves. -/
  ending (text last : List Char) (m : Margin) : List Char × Place × List Char :=
    (match chomp with
      | .strip => text
      | .clip => text ++ last
      | .keep => text ++ last ++ m.breaks, m.place, m.rest)

/-- **A block scalar after its sign**, below a block at a column, if there is one. -/
def blockScalar (folded : Bool) (outer : Option Nat) (p : Place) (cs : List Char) :
    Option (List Char × Place × List Char) := do
  let (chomp, width, after) ← blockMarks cs
  let rest ← endOfLine after
  let p := p.afterTaking cs rest
  let given := width.map (outer.getD 0 + ·)
  let m ← margin given [] 0 p rest
  let column := given.getD (max (max m.deepest (outer.elim 0 (· + 1))) 1)
  blockLines folded chomp column (rest.length + 1) [] [] false m

end LetPoly.Yaml
