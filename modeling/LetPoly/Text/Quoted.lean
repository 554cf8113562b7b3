import LetPoly.Text.Printable

/-! # Quoted texts

Two ways to write a text between double quotes.  A **literal** is what the
language itself reads back: only quotes, backslashes, newlines and tabs are
escaped.  An **escaped** text is made for reading on any device: it is free of
control characters and of everything that is not printable.
-/

namespace LetPoly.Text

/-- How a character is written inside a literal. -/
def literalChar (c : Char) : List Char :=
  if c = '"' then ['\\', '"']
  else if c = '\\' then ['\\', '\\']
  else if c = '\n' then ['\\', 'n']
  else if c = '\t' then ['\\', 't']
  else [c]

/-- **The literal of a text.** -/
def literal (s : String) : String :=
  String.ofList ('"' :: s.toList.flatMap literalChar ++ ['"'])

/-- A digit of base sixteen, in lower case. -/
def hexDigit (n : Nat) : Char := Nat.digitChar (n % 16)

/-- The last `width` digits of `n` in base sixteen. -/
def hex : (width n : Nat) → List Char
  | 0, _ => []
  | w + 1, n => hex w (n / 16) ++ [hexDigit n]

/-- How a character is written between quotes: the usual letters for the usual
control characters, two digits for other ASCII ones, four or eight digits for what is
not printable beyond them. -/
def escapedWithin (quote c : Char) : List Char :=
  if c = quote then ['\\', quote]
  else if c = '\\' then ['\\', '\\']
  else if isPrintable c then [c]
  else match c.toNat with
    | 0x07 => ['\\', 'a']
    | 0x08 => ['\\', 'b']
    | 0x0C => ['\\', 'f']
    | 0x0A => ['\\', 'n']
    | 0x0D => ['\\', 'r']
    | 0x09 => ['\\', 't']
    | 0x0B => ['\\', 'v']
    | n =>
      if n < 0x80 then '\\' :: 'x' :: hex 2 n
      else if n < 0x10000 then '\\' :: 'u' :: hex 4 n
      else '\\' :: 'U' :: hex 8 n

/-- **The escaped form of a text**, between double quotes. -/
def escaped (s : String) : String :=
  String.ofList ('"' :: s.toList.flatMap (escapedWithin '"') ++ ['"'])

/-- The escaped form of a character, between single quotes. -/
def escapedChar (c : Char) : String :=
  String.ofList ('\'' :: escapedWithin '\'' c ++ ['\''])

end LetPoly.Text
