/-! # Types

The types of the language: constants, variables, functions, applications, lists
and schemes.  A scheme `poly a t` binds one variable; schemes over several
variables nest, the outermost binding the first.  A **missing** type stands where
a tree has no node.

Variables are told apart by name.  Those that inference mints are named by a
decimal number, those of an ascription keep the name they were written with.
-/

namespace LetPoly

/-- A type tree. -/
inductive Ty where
  | const (name : String)
  | var (name : String)
  | arrow (arg ret : Ty)
  | app (func arg : Ty)
  | poly (bound : String) (body : Ty)
  | list (elem : Ty)
  | missing
deriving DecidableEq, Repr, Inhabited

namespace Ty

/-! ## Base types -/

def int : Ty := .const "Int"

def bool : Ty := .const "Bool"

def string : Ty := .const "String"

def unit : Ty := .const "Unit"

/-- The names of the base types. -/
def baseNames : List String := ["Int", "Bool", "String", "Unit"]

/-! ## Variables -/

/-- The variable `x` occurs free. -/
def occurs (x : String) : Ty → Bool
  | .const _ | .missing => false
  | .var y => x == y
  | .arrow a r => a.occurs x || r.occurs x
  | .app f a => f.occurs x || a.occurs x
  | .poly b t => b != x && t.occurs x
  | .list t => t.occurs x

/-- Every occurrence of a variable, from left to right.  What a scheme binds
counts where it is used, not where it is bound. -/
def occurrences : Ty → List String
  | .const _ | .missing => []
  | .var x => [x]
  | .arrow a r => a.occurrences ++ r.occurrences
  | .app f a => f.occurrences ++ a.occurrences
  | .poly _ t => t.occurrences
  | .list t => t.occurrences

/-- Every free occurrence of a variable, from left to right. -/
def freeOccurrences : Ty → List String
  | .const _ | .missing => []
  | .var x => [x]
  | .arrow a r => a.freeOccurrences ++ r.freeOccurrences
  | .app f a => f.freeOccurrences ++ a.freeOccurrences
  | .poly b t => t.freeOccurrences.filter (· != b)
  | .list t => t.freeOccurrences

/-- The variables that occur, in order of first appearance. -/
def varNames (t : Ty) : List String := t.occurrences.eraseDups

/-- The variables that occur free, in order of first appearance. -/
def freeVars (t : Ty) : List String := t.freeOccurrences.eraseDups

/-! ## Substitution -/

/-- Types for variables; of two entries for a variable the first counts. -/
abbrev Subst := List (String × Ty)

/-- Replaces free variables, all at once.  A scheme hides its own variable from
the replacement; what is put under it is not renamed. -/
def subst (σ : Subst) : Ty → Ty
  | .const c => .const c
  | .missing => .missing
  | .var x => (σ.lookup x).getD (.var x)
  | .arrow a r => .arrow (a.subst σ) (r.subst σ)
  | .app f a => .app (f.subst σ) (a.subst σ)
  | .poly b t => .poly b (t.subst (σ.filter (·.1 != b)))
  | .list t => .list (t.subst σ)

/-- Replaces one free variable. -/
def replace (t : Ty) (x : String) (u : Ty) : Ty := t.subst [(x, u)]

/-- Gives one free variable another name. -/
def rename (t : Ty) (x y : String) : Ty := t.replace x (.var y)

/-- Binds variables around a type, the first outermost. -/
def bindAll (names : List String) (t : Ty) : Ty := names.foldr .poly t

/-- Binds every free variable, the first to appear outermost. -/
def quantify (t : Ty) : Ty := bindAll t.freeVars t

/-- The leading variables of a scheme, outermost first, and what they bind. -/
def unbind : Ty → List String × Ty
  | .poly b t => (b :: t.unbind.1, t.unbind.2)
  | t => ([], t)

end Ty

/-- Two types that have to be equal. -/
structure Equation where
  left : Ty
  right : Ty
deriving DecidableEq, Repr

end LetPoly
