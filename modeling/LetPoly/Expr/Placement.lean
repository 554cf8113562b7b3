import LetPoly.Expr.Printer

/-! # The placement of definitions

A block has at least one statement and ends with an expression; a definition
stands only as a statement of a block or as the whole input.  Trees that come
from a source obey this by the grammar, trees that are built need not.
-/

namespace LetPoly

/-- What is wrong with the statements of a tree. -/
inductive Misplacement where
  | emptyBlock
  | endsInDefinition
  | strayDefinition (pat : Pat)
deriving DecidableEq, Repr

def Misplacement.message : Misplacement → String
  | .emptyBlock => "Empty block"
  | .endsInDefinition => "Block must end with an expression, not a definition"
  | .strayDefinition p => "Definition of " ++ p.text ++ " is not a block statement"

namespace Expr

mutual
/-- Checks an expression, parents first and from left to right; `statement` says
whether a definition may stand here. -/
def place (statement : Bool) : Expr → Except Misplacement Unit
  | .binary _ l r => do l.place false; r.place false
  | .cons h t => do h.place false; t.place false
  | .cond c y n => do c.place false; y.place false; n.place false
  | .lambda _ _ b => b.place false
  | .app f a => do f.place false; a.place false
  | .block ss => do
    match ss.getLast? with
    | none => throw .emptyBlock
    | some last => if last.isDefinition then throw .endsInDefinition
    placeStmts ss
  | .select v arms => do v.place false; placeArms arms
  | .define _ p _ v => do
    if !statement then throw (.strayDefinition p)
    v.place false
  | _ => pure ()

def placeStmts : List Expr → Except Misplacement Unit
  | [] => pure ()
  | e :: es => do e.place true; placeStmts es

def placeArms : List (Pat × Expr) → Except Misplacement Unit
  | [] => pure ()
  | (_, e) :: arms => do e.place false; placeArms arms
end

/-- **Checks the placement of all definitions in a tree.**  The tree itself may be
a definition. -/
def validate (e : Expr) : Except Misplacement Unit := e.place true

end Expr

end LetPoly
