import LetPoly.Expr.Placement
import LetPoly.Script.Names
import LetPoly.Script.Term

/-! # Compiling to scripts

Every expression becomes one expression of a script.  Blocks and matches are run
where they stand; a pattern becomes the conditions under which it accepts and the
names of its parts.
-/

namespace LetPoly.Script

/-- The reasons for which an expression is not compiled. -/
inductive CompileError where
  | misplaced (m : Misplacement)
  | definition (pat : Pat)
  | strayDefinition (pat : Pat)
  | emptyExpression
deriving DecidableEq, Repr

def CompileError.message : CompileError → String
  | .misplaced m => m.message
  | .definition p => "Cannot compile the definition of " ++ p.text ++ " as an expression"
  | .strayDefinition p => "Definition of " ++ p.text ++ " is only allowed as a block statement"
  | .emptyExpression => "Empty expression"

/-- A computation that gives names and may fail. -/
abbrev Emit := StateT Names (Except CompileError)

/-- Takes a name for a new binding of a source name. -/
def fresh (x : String) : Emit String := modifyGet fun ns => ns.fresh x

/-- Takes a temporary. -/
def temp : Emit String := modifyGet Names.temp

/-- What a pattern becomes. -/
structure Matched where
  tests : List Test := []
  parts : List Stmt := []
  scope : Scope

/-- A pattern for the value at a path. -/
def compilePattern (path : Path) (sc : Scope) : Pat → Emit Matched
  | .ident x => do
    let js ← fresh x
    return { parts := [.part js path], scope := (x, js) :: sc }
  | .number n => return { tests := [.equals path (.number n)], scope := sc }
  | .string s => return { tests := [.equals path (.string s)], scope := sc }
  | .boolean b => return { tests := [.equals path (.boolean b)], scope := sc }
  | .nil => return { tests := [.equals path .null], scope := sc }
  | .cons h t => do
    let hm ← compilePattern path.head sc h
    let tm ← compilePattern path.tail hm.scope t
    return {
      tests := .isCell path :: (hm.tests ++ tm.tests)
      parts := hm.parts ++ tm.parts
      scope := tm.scope }
  | .unit | .wildcard | .missing => return { scope := sc }

/-- Fails unless all conditions hold; without conditions there is nothing to do. -/
def guards (tests : List Test) : List Stmt := if tests.isEmpty then [] else [.guard tests]

/-- A definition of a compiled value, and the scope after it. -/
def compileBinding (p : Pat) (value : Term) (sc : Scope) : Emit (List Stmt × Scope) := do
  match p with
  | .ident x =>
    let js ← fresh x
    return ([.const js value], (x, js) :: sc)
  | p =>
    let tmp ← temp
    let m ← compilePattern (.name tmp) sc p
    return (.const tmp value :: (guards m.tests ++ m.parts), m.scope)

/-- An operation on compiled operands. -/
def operation (op : Op) (l r : Term) : Term :=
  match op with
  | .divide => .quotient l r
  | .equal => .operation "===" l r
  | .notEqual => .operation "!==" l r
  | op => .operation op.spelling l r

mutual
/-- An expression within a scope. -/
def compileTerm (sc : Scope) : Expr → Emit Term
  | .number n => return .number n
  | .string s => return .string s
  | .boolean b => return .boolean b
  | .unit => return .undefined
  | .nil => return .null
  | .ident x => return .name (sc.resolve x)
  | .binary op l r => do
    let l ← compileTerm sc l
    let r ← compileTerm sc r
    return operation op l r
  | .cons h t => do
    let h ← compileTerm sc h
    let t ← compileTerm sc t
    return .cell h t
  | .cond c y n => do
    let c ← compileTerm sc c
    let y ← compileTerm sc y
    let n ← compileTerm sc n
    return .choice c y n
  | .lambda (.ident x) _ b => do
    let js ← fresh x
    let body ← compileTerm ((x, js) :: sc) b
    return .arrow js body
  | .lambda .wildcard _ b => do
    let body ← compileTerm sc b
    let tmp ← temp
    return .arrow tmp body
  | .lambda p _ b => do
    let tmp ← temp
    let m ← compilePattern (.name tmp) sc p
    let body ← compileTerm m.scope b
    return .function tmp (guards m.tests ++ m.parts ++ [.return body])
  | .app f a => do
    let f ← compileTerm sc f
    let a ← compileTerm sc a
    return .call f a
  | .block ss => return .run (← compileBlock sc ss)
  | .select v arms => do
    let v ← compileTerm sc v
    let tmp ← temp
    let arms ← compileArms (.name tmp) sc arms
    return .call (.function tmp (arms ++ [.noCase])) v
  | .define _ p _ _ => throw (.strayDefinition p)
  | .missing => throw .emptyExpression

/-- The statements of a block. -/
def compileBlock (sc : Scope) : List Expr → Emit (List Stmt)
  | [] => throw (.misplaced .emptyBlock)
  | [e] => return [.return (← compileTerm sc e)]
  | .define _ p _ v :: es => do
    let value ← compileTerm sc v
    let (stmts, sc) ← compileBinding p value sc
    return stmts ++ (← compileBlock sc es)
  | e :: es => do
    let t ← compileTerm sc e
    return .expression t :: (← compileBlock sc es)

/-- The cases of a match on the value at a path. -/
def compileArms (path : Path) (sc : Scope) : List (Pat × Expr) → Emit (List Stmt)
  | [] => return []
  | (p, b) :: arms => do
    let m ← compilePattern path sc p
    let body ← compileTerm m.scope b
    return .arm m.tests (m.parts ++ [.return body]) :: (← compileArms path sc arms)
end

/-- Checks the placement of definitions. -/
def checkPlacement (e : Expr) : Except CompileError Unit := e.validate.mapError .misplaced

/-- **The script expression of an expression.** -/
def compile (e : Expr) : Except CompileError Term := do
  checkPlacement e
  if let .define _ p _ _ := e then throw (.definition p)
  let (t, _) ← (compileTerm [] e).run {}
  return t

/-- A whole script: a line of statements for each definition, and the expression
whose value is printed. -/
structure Program where
  lines : List (List Stmt)
  result : Option Term

/-- The definitions of a program. -/
def compileDefinitions (sc : Scope) : List Definition → Emit (List (List Stmt) × Scope)
  | [] => return ([], sc)
  | d :: ds => do
    checkPlacement d.expr
    let value ← compileTerm sc d.value
    let (line, sc) ← compileBinding d.pat value sc
    let (lines, sc) ← compileDefinitions sc ds
    return (line :: lines, sc)

/-- **The script of definitions and a result.** -/
def compileProgram (defs : List Definition) (result : Option Expr) :
    Except CompileError Program := do
  let build : Emit Program := do
    let (lines, sc) ← compileDefinitions [] defs
    match result with
    | none => return { lines, result := none }
    | some e =>
      checkPlacement e
      return { lines, result := some (← compileTerm sc e) }
  let (p, _) ← build.run {}
  return p

/-- The function by which a script shows a value. -/
def showHelper : String :=
  "const $show = (v) => \x7b\n" ++
  "  if (v === undefined) return \"()\";\n" ++
  "  if (v === null) return \"[]\";\n" ++
  "  if (typeof v === \"boolean\") return v ? \"True\" : \"False\";\n" ++
  "  if (typeof v === \"string\") return JSON.stringify(v);\n" ++
  "  if (typeof v === \"function\") return \"<fun>\";\n" ++
  "  if (typeof v === \"object\") \x7b\n" ++
  "    const xs = [];\n" ++
  "    for (let l = v; l !== null; l = l.tail) xs.push($show(l.head));\n" ++
  "    return \"[\" + xs.join(\", \") + \"]\";\n" ++
  "  \x7d\n" ++
  "  return String(v);\n" ++
  "\x7d;\n"

/-- **The text of a whole script.** -/
def Program.text (p : Program) : String :=
  "\"use strict\";\n" ++ showHelper ++ String.join (p.lines.map fun l => lineText l ++ "\n") ++
    match p.result with
    | none => ""
    | some t => "console.log($show(" ++ t.text ++ "));\n"

end LetPoly.Script
