import LetPoly.Text.Decimal
import LetPoly.Text.Quoted
import LetPoly.Ty.Printer

/-! # Patterns

A pattern takes a value apart and names its parts.  Literal patterns accept one
value, the wildcard and identifiers accept every value, and list patterns follow
the two forms of a list.
-/

namespace LetPoly

inductive Pat where
  | number (value : Int64)
  | string (value : String)
  | boolean (value : Bool)
  | unit
  | wildcard
  | ident (name : String)
  | cons (head tail : Pat)
  | nil
  | missing
deriving DecidableEq, Repr, Inhabited

/-- How a truth value is written. -/
def boolText (b : Bool) : String := if b then "True" else "False"

namespace Pat

/-- A pattern that accepts exactly one value. -/
def isLiteral : Pat → Bool
  | .number _ | .string _ | .boolean _ | .unit => true
  | .wildcard | .ident _ | .cons .. | .nil | .missing => false

/-- A pattern and the patterns inside it, parents first. -/
def walk : Pat → List Pat
  | .missing => []
  | .cons h t => .cons h t :: (h.walk ++ t.walk)
  | p => [p]

/-- The names that a pattern binds, from left to right. -/
def names : Pat → List String
  | .ident x => [x]
  | .cons h t => h.names ++ t.names
  | _ => []

/-- The text of a pattern; where it is `simple`, a list pattern is put in
parentheses. -/
def print (simple : Bool) : Pat → String
  | .number n => Text.Decimal.word n
  | .string s => Text.literal s
  | .boolean b => boolText b
  | .unit => "()"
  | .wildcard => "_"
  | .ident x => x
  | .nil => "[]"
  | .cons h t => parenthesized simple (h.print true ++ " :: " ++ t.print false)
  | .missing => "<nil>"

/-- **The text of a pattern.** -/
def text (p : Pat) : String := p.print false

end Pat

end LetPoly
