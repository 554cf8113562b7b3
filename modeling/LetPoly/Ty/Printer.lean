import LetPoly.Ty.Canonical

/-! # Types as text

Functions are written `A -> B`, lists `[T]`, schemes `a . T`, applications by
juxtaposition.  A variable named by a positive decimal number is written with
letters: 1 is `a`, 26 is `z`, 27 is `aa`; any other name is written as it is.
-/

namespace LetPoly

/-- A number in the numeral system with the digits `a` = 1 to `z` = 26 and no
zero. -/
def letters (n : Nat) : List Char :=
  if n = 0 then []
  else letters ((n - 1) / 26) ++ [Char.ofNat ('a'.toNat + (n - 1) % 26)]
termination_by n
decreasing_by omega

/-- How the name of a type variable is written. -/
def displayName (x : String) : String :=
  match Text.Decimal.signed? x with
  | some n => if 0 < n then String.ofList (letters n.toInt.toNat) else x
  | none => x

/-- Puts a text in parentheses where `wrap` asks for them. -/
def parenthesized (wrap : Bool) (s : String) : String := if wrap then "(" ++ s ++ ")" else s

namespace Ty

/-- Functions and schemes reach as far to the right as they can, so to the left
of an arrow or of an argument they need parentheses. -/
def isOpen : Ty → Bool
  | .arrow .. | .poly .. => true
  | _ => false

/-- The text of a type; where it is `simple`, a compound type is put in
parentheses. -/
def print (simple : Bool) : Ty → String
  | .const c => c
  | .var x => displayName x
  | .list t => "[" ++ t.print false ++ "]"
  | .arrow a r => parenthesized simple (a.print a.isOpen ++ " -> " ++ r.print false)
  | .app f a => parenthesized simple (f.print f.isOpen ++ " " ++ a.print true)
  | .poly b t => parenthesized simple (displayName b ++ " . " ++ t.print false)
  | .missing => "<nil>"

/-- **The text of a type.** -/
def text (t : Ty) : String := t.print false

/-- **The text in which a type is shown**: every free variable is bound, and the
variables have their canonical names. -/
def display (t : Ty) : String := t.quantify.canonical.text

end Ty

end LetPoly
