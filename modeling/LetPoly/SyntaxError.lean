import LetPoly.Token.Basic

/-! # Syntax errors

What can be wrong with a source, and where.  An error is **incomplete** if the
source only ended too early: reading on may mend it.
-/

namespace LetPoly

namespace SyntaxError

/-- The place in the grammar where a token was expected. -/
inductive Place where
  | definition | condition | conditional
  | matchValue | matchOpen | matchCase | casePattern | matchCaseEnd
  | emptyList | parenthesized | statementEnd
  | quantifier | quantified | parenthesizedType | listType
  | emptyListPattern | parenthesizedPattern
deriving DecidableEq, Repr

/-- How a message describes a place. -/
def Place.describe : Place → String
  | .definition => "in definition"
  | .condition => "after condition"
  | .conditional => "in conditional"
  | .matchValue => "after match value"
  | .matchOpen => "to open match cases"
  | .matchCase => "before match case"
  | .casePattern => "after case pattern"
  | .matchCaseEnd => "after match case"
  | .emptyList => "in empty list"
  | .parenthesized => "to close parenthesized expression"
  | .statementEnd => "after block statement"
  | .quantifier => "after tfn"
  | .quantified => "after quantified variable"
  | .parenthesizedType => "to close parenthesized type"
  | .listType => "to close list type"
  | .emptyListPattern => "in empty-list pattern"
  | .parenthesizedPattern => "to close parenthesized pattern"

/-- What was expected where something else was found. -/
inductive Phrase where
  | expression | pattern | type
deriving DecidableEq, Repr

def Phrase.describe : Phrase → String
  | .expression => "an expression"
  | .pattern => "a pattern"
  | .type => "a type"

/-- What is wrong. -/
inductive Cause where
  | strayChar (char : Char)
  | unknownEscape (char : Char)
  | openString
  | expected (kind : Token.Kind) (place : Place) (found : Token)
  | unexpected (phrase : Phrase) (found : Token)
  | trailing (found : Token)
  | outOfRange (numeral : String)
  | noCases
  | emptyBlock
  | endsInDefinition
  /-- The nesting exceeds the bound that the reader was given. -/
  | tooDeep
  /-- The row of tokens has no end-of-input token. -/
  | pastEnd
deriving DecidableEq, Repr

def Cause.describe : Cause → String
  | .strayChar c => "unexpected character '" ++ String.singleton c ++ "'"
  | .unknownEscape c => "invalid escape sequence \\" ++ String.singleton c
  | .openString => "unterminated string literal"
  | .expected k place found =>
    "expected '" ++ k.name ++ "' " ++ place.describe ++ ", found " ++ found.describe
  | .unexpected phrase found => "expected " ++ phrase.describe ++ ", found " ++ found.describe
  | .trailing found => "unexpected " ++ found.describe ++ " after end of input"
  | .outOfRange numeral => "integer literal " ++ numeral ++ " is out of range"
  | .noCases => "match requires at least one case"
  | .emptyBlock => "empty block"
  | .endsInDefinition => "block must end with an expression"
  | .tooDeep => "nesting is too deep"
  | .pastEnd => "tokens do not end with the end of input"

/-- The source ended before what was being read was complete. -/
def Cause.incomplete : Cause → Bool
  | .openString => true
  | .expected _ _ found | .unexpected _ found | .trailing found => found.kind == .eof
  | _ => false

end SyntaxError

structure SyntaxError where
  pos : Pos
  cause : SyntaxError.Cause
deriving DecidableEq, Repr

namespace SyntaxError

def message (e : SyntaxError) : String :=
  "line " ++ Text.Decimal.natural e.pos.line ++ ":" ++ Text.Decimal.natural e.pos.column ++ " " ++
    e.cause.describe

/-- The source only ended too early. -/
def incomplete (e : SyntaxError) : Bool := e.cause.incomplete

end SyntaxError

end LetPoly
