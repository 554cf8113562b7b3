import LetPoly.Expr.Printer

/-! # Type errors

The reasons for which an expression has no type.
-/

namespace LetPoly

/-- A form that stands where its kind is not allowed. -/
inductive Disallowed where
  | emptyBlock
  | endsInDefinition (pat : Pat)
  | strayDefinition (pat : Pat)
  | definedPattern (pat : Pat)
deriving DecidableEq, Repr

def Disallowed.message : Disallowed → String
  | .emptyBlock => "Empty block"
  | .endsInDefinition p => "Block must end with an expression, not the definition of " ++ p.text
  | .strayDefinition p => "Definition of " ++ p.text ++ " is only allowed as a block statement"
  | .definedPattern p => "Pattern " ++ p.text ++ " cannot be used in a definition"

inductive TypeError where
  | unbound (name : String)
  | mismatch (left right : Ty)
  | infinite (var : String) (type : Ty)
  | disallowed (form : Disallowed)
  | unknownOperator (op : Op)
  | emptyExpression
  | emptyPattern
  | emptyDefinition
deriving DecidableEq, Repr

def TypeError.message : TypeError → String
  | .unbound x => "Variable " ++ x ++ " not found"
  | .mismatch l r => "Failed to unify " ++ l.text ++ " with " ++ r.text
  | .infinite x t => "Infinite type: " ++ (Ty.var x).text ++ " occurs in " ++ t.text
  | .disallowed form => form.message
  | .unknownOperator op => "Unhandled syntax: operator " ++ op.spelling
  | .emptyExpression => "Empty expression"
  | .emptyPattern => "Empty pattern"
  | .emptyDefinition => "Empty definition"

end LetPoly
