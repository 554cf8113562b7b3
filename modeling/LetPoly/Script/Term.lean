import LetPoly.Text.Decimal
import LetPoly.Text.Quoted

/-! # Scripts

The part of JavaScript that programs are compiled to, as trees and as text.  Words
are numbers, the unit is `undefined`, the empty list is `null`, and a list cell is
an object with a head and a tail.
-/

namespace LetPoly.Script

/-- A part of the value of a variable. -/
inductive Path where
  | name (x : String)
  | head (p : Path)
  | tail (p : Path)
deriving DecidableEq, Repr

def Path.text : Path → String
  | .name x => x
  | .head p => p.text ++ ".head"
  | .tail p => p.text ++ ".tail"

/-- A value to compare with. -/
inductive Literal where
  | number (n : Int64)
  | string (s : String)
  | boolean (b : Bool)
  | null
deriving DecidableEq, Repr

/-- How a truth value is written. -/
def truthText (b : Bool) : String := if b then "true" else "false"

def Literal.text : Literal → String
  | .number n => Text.Decimal.word n
  | .string s => Text.escaped s
  | .boolean b => truthText b
  | .null => "null"

/-- A condition on a part of a value. -/
inductive Test where
  | equals (path : Path) (value : Literal)
  | isCell (path : Path)
deriving DecidableEq, Repr

def Test.text : Test → String
  | .equals p v => p.text ++ " === " ++ v.text
  | .isCell p => p.text ++ " !== null"

/-- All of some conditions. -/
def allText (tests : List Test) : String := " && ".intercalate (tests.map Test.text)

mutual
/-- An expression of a script. -/
inductive Term where
  | number (n : Int64)
  | string (s : String)
  | boolean (b : Bool)
  | undefined
  | null
  | name (x : String)
  /-- The quotient of two numbers, without its fraction. -/
  | quotient (left right : Term)
  | operation (sign : String) (left right : Term)
  | cell (head tail : Term)
  | choice (test yes no : Term)
  /-- A function whose body is an expression. -/
  | arrow (param : String) (body : Term)
  /-- A function whose body is a row of statements. -/
  | function (param : String) (body : List Stmt)
  | call (callee arg : Term)
  /-- Statements that are run where they stand. -/
  | run (body : List Stmt)

/-- A statement of a script. -/
inductive Stmt where
  | const (x : String) (value : Term)
  /-- A name for a part of a value. -/
  | part (x : String) (path : Path)
  /-- Fails unless all conditions hold. -/
  | guard (tests : List Test)
  /-- Runs its body if all conditions hold. -/
  | arm (tests : List Test) (body : List Stmt)
  | expression (t : Term)
  | return (t : Term)
  /-- Fails, because no case matches. -/
  | noCase
end

/-- Terms that may be called as they stand; others are put in parentheses. -/
def Term.isCallable : Term → Bool
  | .name _ | .call .. | .arrow .. | .function .. | .choice .. | .run _ => true
  | _ => false

/-- The body of a function, which must not start with a brace. -/
def arrowBody (s : String) : String :=
  if s.toList.head? = some '\x7b' then "(" ++ s ++ ")" else s

mutual
/-- **The text of an expression.** -/
def Term.text : Term → String
  | .number n => if n < 0 then "(" ++ Text.Decimal.word n ++ ")" else Text.Decimal.word n
  | .string s => Text.escaped s
  | .boolean b => truthText b
  | .undefined => "undefined"
  | .null => "null"
  | .name x => x
  | .quotient l r => "Math.trunc(" ++ l.text ++ " / " ++ r.text ++ ")"
  | .operation sign l r => "(" ++ l.text ++ " " ++ sign ++ " " ++ r.text ++ ")"
  | .cell h t => "\x7b head: " ++ h.text ++ ", tail: " ++ t.text ++ " \x7d"
  | .choice c y n => "(" ++ c.text ++ " ? " ++ y.text ++ " : " ++ n.text ++ ")"
  | .arrow x b => "((" ++ x ++ ") => " ++ arrowBody b.text ++ ")"
  | .function x b => "((" ++ x ++ ") => \x7b" ++ bodyText b ++ " \x7d)"
  | .call f a => (if f.isCallable then f.text else "(" ++ f.text ++ ")") ++ "(" ++ a.text ++ ")"
  | .run b => "(() => \x7b" ++ bodyText b ++ " \x7d)()"

/-- **The text of a statement.** -/
def Stmt.text : Stmt → String
  | .const x t => "const " ++ x ++ " = " ++ t.text ++ ";"
  | .part x p => "const " ++ x ++ " = " ++ p.text ++ ";"
  | .guard tests =>
    "if (!(" ++ allText tests ++ ")) throw new Error(\"Pattern match failure\");"
  | .arm tests b =>
    (if tests.isEmpty then "" else "if (" ++ allText tests ++ ") ") ++ "\x7b" ++ bodyText b ++ " \x7d"
  | .expression t => t.text ++ ";"
  | .return t => "return " ++ t.text ++ ";"
  | .noCase => "throw new Error(\"No case matches\");"

/-- The statements of a body, each after a space. -/
def bodyText : List Stmt → String
  | [] => ""
  | s :: ss => " " ++ s.text ++ bodyText ss
end

/-- A row of statements on one line. -/
def lineText (ss : List Stmt) : String := " ".intercalate (ss.map Stmt.text)

end LetPoly.Script
