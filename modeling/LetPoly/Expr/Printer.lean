import LetPoly.Expr.Basic

/-! # Expressions as text

Every form has a binding level: 1 for what stands by itself, 2 for application,
the operator's level for operations, 8 for `::`, and 9 for what reaches as far to
the right as it can.  A place in the text allows forms up to some level, and puts
looser ones in parentheses.  A negative number is written as a subtraction from
zero and has the level of one.
-/

namespace LetPoly.Expr

/-- The level of a form that stands by itself. -/
def atomLevel : Nat := 1

/-- The level of an application. -/
def appLevel : Nat := 2

/-- The level of `::`. -/
def consLevel : Nat := 8

/-- The level that allows every form. -/
def loosest : Nat := 9

/-- The binding level of an expression. -/
def level : Expr → Nat
  | .app .. => appLevel
  | .binary op _ _ => op.level
  | .cons .. => consLevel
  | .lambda .. | .cond .. | .select .. | .define .. => loosest
  | .number n => if n < 0 then Op.level .minus else atomLevel
  | _ => atomLevel

/-- The ascription of a definition, with the colon before it. -/
def ascriptionText : Option Ty → String
  | none => ""
  | some t => " : " ++ t.text

/-- The head of a function, up to the arrow. -/
def headText (p : Pat) : Option Ty → String
  | none => p.print true
  | some t => "(" ++ p.text ++ " : " ++ t.text ++ ")"

mutual
/-- The text of an expression where its level is allowed. -/
def bare : Expr → String
  | .number n =>
    if n < 0 then "0 - " ++ Text.Decimal.natural n.toInt.natAbs else Text.Decimal.word n
  | .string s => Text.literal s
  | .boolean b => boolText b
  | .unit => "()"
  | .nil => "[]"
  | .ident x => x
  | .binary op l r =>
    parenthesized (op.level < l.level) l.bare ++ " " ++ op.spelling ++ " " ++
      parenthesized (op.level - 1 < r.level) r.bare
  | .cons h t =>
    parenthesized (consLevel - 1 < h.level) h.bare ++ " :: " ++
      parenthesized (consLevel < t.level) t.bare
  | .cond c y n => "if " ++ c.bare ++ " then " ++ y.bare ++ " else " ++ n.bare
  | .lambda p a b => headText p a ++ " => " ++ b.bare
  | .app f a =>
    parenthesized (appLevel < f.level) f.bare ++ " " ++ parenthesized (atomLevel < a.level) a.bare
  | .block ss => "\x7b" ++ bareStmts ss ++ " \x7d"
  | .select v arms => "match " ++ v.bare ++ " with \x7b" ++ bareArms arms ++ " \x7d"
  | .define k p a v => k.spelling ++ " " ++ p.print true ++ ascriptionText a ++ " = " ++ v.bare
  | .missing => "<nil>"

def bareStmts : List Expr → String
  | [] => ""
  | e :: es => " " ++ e.bare ++ ";" ++ bareStmts es

def bareArms : List (Pat × Expr) → String
  | [] => ""
  | (p, e) :: arms => " case " ++ p.text ++ " => " ++ e.bare ++ ";" ++ bareArms arms
end

/-- The text of an expression in a place that allows forms up to a level. -/
def print (allowed : Nat) (e : Expr) : String := parenthesized (allowed < e.level) e.bare

/-- **The text of an expression.** -/
def text (e : Expr) : String := e.print loosest

end LetPoly.Expr
