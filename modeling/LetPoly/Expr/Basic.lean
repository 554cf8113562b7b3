import LetPoly.Op
import LetPoly.Pat.Basic
import LetPoly.Ty.Basic

/-! # Expressions

The expressions of the language.  A definition is an expression by form only: it
stands as a statement of a block, other than the last, or as a whole input.  A
**missing** expression stands where a tree has no node.
-/

namespace LetPoly

/-- The two words that start a definition. -/
inductive Binder where
  | val
  | var
deriving DecidableEq, Repr, Inhabited

/-- How the word is spelled. -/
def Binder.spelling : Binder → String
  | .val => "val"
  | .var => "var"

/-- An expression tree. -/
inductive Expr where
  | number (value : Int64)
  | string (value : String)
  | boolean (value : Bool)
  | unit
  | nil
  | ident (name : String)
  | binary (op : Op) (left right : Expr)
  | cons (head tail : Expr)
  | cond (test yes no : Expr)
  | lambda (param : Pat) (ascription : Option Ty) (body : Expr)
  | app (func arg : Expr)
  | block (stmts : List Expr)
  | select (value : Expr) (arms : List (Pat × Expr))
  | define (binder : Binder) (pat : Pat) (ascription : Option Ty) (value : Expr)
  | missing
deriving Repr, Inhabited

/-- The parts of a definition. -/
structure Definition where
  binder : Binder
  pat : Pat
  ascription : Option Ty
  value : Expr
deriving Repr, Inhabited

/-- The expression that a definition is by form. -/
def Definition.expr (d : Definition) : Expr := .define d.binder d.pat d.ascription d.value

namespace Expr

/-- The parts of an expression that is a definition. -/
def definition? : Expr → Option Definition
  | .define binder pat ascription value => some ⟨binder, pat, ascription, value⟩
  | _ => none

/-- A definition by form. -/
def isDefinition (e : Expr) : Bool := e.definition?.isSome

/-! ## Walking a tree -/

mutual
/-- An expression and the expressions inside it, parents first.  Missing nodes
are passed over. -/
def walk : Expr → List Expr
  | .binary op l r => .binary op l r :: (l.walk ++ r.walk)
  | .cons h t => .cons h t :: (h.walk ++ t.walk)
  | .cond c y n => .cond c y n :: (c.walk ++ y.walk ++ n.walk)
  | .lambda p a b => .lambda p a b :: b.walk
  | .app f a => .app f a :: (f.walk ++ a.walk)
  | .block ss => .block ss :: walkStmts ss
  | .select v arms => .select v arms :: (v.walk ++ walkArms arms)
  | .define k p a v => .define k p a v :: v.walk
  | .missing => []
  | e => [e]

def walkStmts : List Expr → List Expr
  | [] => []
  | e :: es => e.walk ++ walkStmts es

def walkArms : List (Pat × Expr) → List Expr
  | [] => []
  | (_, e) :: arms => e.walk ++ walkArms arms
end

end Expr

end LetPoly
