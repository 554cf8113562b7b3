/-! # The text of a YAML file

Characters, line breaks and places in a file, and the gaps between the words of a
scalar.  A line break inside a scalar stands for a blank, and each empty line after it
for a break.
-/

namespace LetPoly.Yaml

/-- A blank inside a line. -/
def isBlank (c : Char) : Bool := c == ' ' || c == '\t'

/-- A line break. -/
def isBreak (c : Char) : Bool := c == '\n' || c == '\u2028' || c == '\u2029'

/-- Nothing, a blank or a line break follows. -/
def atGap : List Char → Bool
  | [] => true
  | c :: _ => isBlank c || isBreak c

/-- A character that is punctuation inside brackets. -/
def isBracketing (c : Char) : Bool := c == ',' || c == '[' || c == ']' || c == '\x7b' || c == '\x7d'

/-- A character of a name. -/
def isNameChar (c : Char) : Bool := c.isAlphanum || c == '_' || c == '-'

/-- A character that a file may hold. -/
def isAllowed (c : Char) : Bool :=
  let n := c.toNat
  n == 0x09 || n == 0x0A || n == 0x0D || (0x20 ≤ n && n ≤ 0x7E) || n == 0x85 ||
    (0xA0 ≤ n && n ≤ 0xD7FF) || (0xE000 ≤ n && n ≤ 0xFFFD) || 0x10000 ≤ n

/-- Writes the usual line breaks as line feeds. -/
def unifyBreaks : List Char → List Char
  | '\r' :: '\n' :: cs => '\n' :: unifyBreaks cs
  | '\r' :: cs => '\n' :: unifyBreaks cs
  | '\u0085' :: cs => '\n' :: unifyBreaks cs
  | c :: cs => c :: unifyBreaks cs
  | [] => []

/-- Three dashes or three dots before a gap.  At the start of a line they bound a
document. -/
def isBound : List Char → Bool
  | a :: b :: c :: cs => (a == '-' || a == '.') && b == a && c == a && atGap cs
  | _ => false

/-! ## Places -/

/-- A place in a file, counted from zero. -/
structure Place where
  line : Nat := 0
  column : Nat := 0
  /-- The number of characters before the place. -/
  index : Nat := 0
deriving DecidableEq, Repr

namespace Place

/-- The place after a character. -/
def after (p : Place) (c : Char) : Place :=
  if isBreak c then ⟨p.line + 1, 0, p.index + 1⟩ else ⟨p.line, p.column + 1, p.index + 1⟩

/-- The place after what was taken from the front of a text. -/
def afterTaking (p : Place) (before rest : List Char) : Place :=
  (before.take (before.length - rest.length)).foldl after p

end Place

/-! ## Gaps -/

/-- The blanks and line breaks between two words. -/
structure Gap where
  blanks : List Char := []
  breaks : List Char := []
  /-- The gap starts with a line break that was taken back. -/
  joined : Bool := false
deriving DecidableEq, Repr

namespace Gap

/-- The gap runs over the end of a line. -/
def isBroken (g : Gap) : Bool := g.joined || !g.breaks.isEmpty

def isEmpty (g : Gap) : Bool := g.blanks.isEmpty && !g.isBroken

/-- The gap with one more blank.  Blanks at the start of a line do not count. -/
def blank (g : Gap) (c : Char) : Gap := if g.isBroken then g else { g with blanks := g.blanks ++ [c] }

/-- The gap with one more line break.  Blanks at the end of a line do not count. -/
def lineBreak (g : Gap) (c : Char) : Gap := { g with blanks := [], breaks := g.breaks ++ [c] }

/-- **What a gap stands for.** -/
def text (g : Gap) : List Char :=
  if g.joined then g.breaks
  else match g.breaks with
    | [] => g.blanks
    | ['\n'] => [' ']
    | '\n' :: more => more
    | bs => bs

end Gap

end LetPoly.Yaml
