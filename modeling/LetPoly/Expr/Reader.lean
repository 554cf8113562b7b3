import LetPoly.Expr.Basic
import LetPoly.Pat.Reader
import LetPoly.Ty.Reader

/-! # Reading expressions

From loose to tight: functions, conditionals and matches; `::`, which associates
to the right; the operators, level by level, which associate to the left;
application by juxtaposition; atoms.

Whether a function starts is found by trying: a function head is an atomic
pattern before `=>`, or a pattern with a type in parentheses before `=>`.  Where
neither stands, nothing has been taken.
-/

namespace LetPoly.Expr

/-! ## Operators -/

/-- The operator that a token stands for. -/
def opOf? : Token.Kind → Option Op
  | .star => some .times
  | .slash => some .divide
  | .plus => some .plus
  | .minus => some .minus
  | .lt => some .less
  | .le => some .lessEq
  | .gt => some .greater
  | .ge => some .greaterEq
  | .eq => some .equal
  | .ne => some .notEqual
  | .and => some .and
  | .or => some .or
  | _ => none

/-- A token that may start an atom. -/
def startsAtom : Token.Kind → Bool
  | .int | .string | .kwTrue | .kwFalse | .ident | .lparen | .lbracket | .lbrace => true
  | _ => false

/-! ## Function heads -/

/-- An atomic pattern before `=>`. -/
def readPlainHead (bound : Nat) : Reader (Option Pat) := do
  let p ← Pat.readAtom bound
  if ← Reader.accept .fatArrow then return some p else return none

/-- A pattern with a type in parentheses, before `=>`. -/
def readTypedHead (bound : Nat) : Reader (Option (Pat × Ty)) := do
  if ← Reader.accept .lparen then
    let p ← Pat.read bound
    if ← Reader.accept .colon then
      let t ← Ty.read bound
      if ← Reader.accept .rparen then
        if ← Reader.accept .fatArrow then return some (p, t)
  return none

/-- **The head of a function**, up to and with `=>`, and the tokens after it; `none`
if no function starts here. -/
def head? (bound : Nat) (ts : List Token) : Option ((Pat × Option Ty) × List Token) :=
  match (readPlainHead bound).run ts with
  | .ok (some p, rest) => some ((p, none), rest)
  | _ =>
    match (readTypedHead bound).run ts with
    | .ok (some (p, t), rest) => some ((p, some t), rest)
    | _ => none

/-! ## Phrases, with the reader of the expressions inside them -/

/-- An ascription, if one follows. -/
def readAscription (bound : Nat) : Reader (Option Ty) := do
  if ← Reader.accept .colon then
    let t ← Ty.read bound
    return some t
  else
    return none

/-- A definition, up to its end. -/
def readDefinition (bound : Nat) (expr : Reader Expr) : Reader Expr := do
  let word ← Reader.next
  let binder := if word.kind = .kwVar then Binder.var else Binder.val
  let pat ← Pat.readAtom bound
  let ascription ← readAscription bound
  let _ ← Reader.expect .assign .definition
  let value ← expr
  return .define binder pat ascription value

/-- A definition or an expression. -/
def readStatement (bound : Nat) (expr : Reader Expr) : Reader Expr := do
  match (← Reader.peek).kind with
  | .kwVal | .kwVar => readDefinition bound expr
  | _ => expr

/-- A block after its opening brace. -/
def readBlock (bound : Nat) (expr : Reader Expr) : Reader Expr := do
  let (stmts, brace) ← Reader.items (readStatement bound expr) .statementEnd bound
  match stmts.getLast? with
  | none => Reader.failAt brace .emptyBlock
  | some last =>
    if last.isDefinition then
      Reader.failAt brace .endsInDefinition
    else
      return .block stmts

/-- An atom. -/
def readAtom (bound : Nat) (expr : Reader Expr) : Reader Expr := do
  let t ← Reader.next
  match t.kind with
  | .int => return .number (← Reader.numeral t)
  | .string => return .string t.literal
  | .kwTrue => return .boolean true
  | .kwFalse => return .boolean false
  | .ident => return .ident t.literal
  | .lbracket => do
    let _ ← Reader.expect .rbracket .emptyList
    return .nil
  | .lparen => do
    if ← Reader.accept .rparen then
      return .unit
    else
      let inner ← expr
      let _ ← Reader.expect .rparen .parenthesized
      return inner
  | .lbrace => readBlock bound expr
  | _ => Reader.failAt t (.unexpected .expression t)

/-- Applies an expression to the atom that follows, if one does. -/
def readArg? (bound : Nat) (expr : Reader Expr) (func : Expr) : Reader (Option Expr) := do
  if startsAtom (← Reader.peek).kind then
    let arg ← readAtom bound expr
    return some (.app func arg)
  else
    return none

/-- An atom applied to any number of atoms. -/
def readApp (bound : Nat) (expr : Reader Expr) : Reader Expr := do
  let func ← readAtom bound expr
  Reader.extend (readArg? bound expr) bound func

/-- Goes on an operation with an operator of the level and its right operand, if one
follows. -/
def readOperation? (level : Nat) (operand : Reader Expr) (left : Expr) :
    Reader (Option Expr) := do
  match opOf? (← Reader.peek).kind with
  | some op =>
    if op.level = level then
      let _ ← Reader.next
      let right ← operand
      return some (.binary op left right)
    else
      return none
  | none => return none

/-- Operations of the `tiers` tightest levels of operators. -/
def readOperators (bound : Nat) (expr : Reader Expr) : (tiers : Nat) → Reader Expr
  | 0 => readApp bound expr
  | n + 1 => do
    let left ← readOperators bound expr n
    Reader.extend (readOperation? (n + 3) (readOperators bound expr n)) bound left

/-- Operations of all levels, and after `::` the tail of a list. -/
def readCons (bound : Nat) (expr : Reader Expr) : Reader Expr := do
  let head ← readOperators bound expr 5
  if ← Reader.accept .cons then
    let tail ← expr
    return .cons head tail
  else
    return head

/-- A conditional. -/
def readConditional (expr : Reader Expr) : Reader Expr := do
  let _ ← Reader.next
  let test ← expr
  let _ ← Reader.expect .kwThen .condition
  let yes ← expr
  let _ ← Reader.expect .kwElse .conditional
  let no ← expr
  return .cond test yes no

/-- A case of a match. -/
def readArm (bound : Nat) (expr : Reader Expr) : Reader (Pat × Expr) := do
  let _ ← Reader.expect .kwCase .matchCase
  let pat ← Pat.read bound
  let _ ← Reader.expect .fatArrow .casePattern
  let body ← expr
  return (pat, body)

/-- A match. -/
def readMatch (bound : Nat) (expr : Reader Expr) : Reader Expr := do
  let _ ← Reader.next
  let value ← expr
  let _ ← Reader.expect .kwWith .matchValue
  let _ ← Reader.expect .lbrace .matchOpen
  let (arms, brace) ← Reader.items (readArm bound expr) .matchCaseEnd bound
  if arms.isEmpty then
    Reader.failAt brace .noCases
  else
    return .select value arms

/-- A function, or what is tighter. -/
def readFunction (bound : Nat) (expr : Reader Expr) : Reader Expr := fun ts =>
  match head? bound ts with
  | some ((param, ascription), rest) => (Expr.lambda param ascription <$> expr).run rest
  | none => (readCons bound expr).run ts

/-- An expression. -/
def readWith (bound : Nat) (expr : Reader Expr) : Reader Expr := do
  match (← Reader.peek).kind with
  | .kwIf => readConditional expr
  | .kwMatch => readMatch bound expr
  | _ => readFunction bound expr

/-! ## Whole sources -/

/-- An expression nested less deeply than the bound. -/
def read : Nat → Reader Expr
  | 0 => Reader.tooDeep
  | n + 1 => readWith n (read n)

/-- A statement and an optional semicolon. -/
def readProgram (bound : Nat) : Reader Expr := do
  let stmt ← readStatement bound (read bound)
  let _ ← Reader.accept .semicolon
  return stmt

/-- Statements separated by semicolons; the last semicolon is optional. -/
def readSequence (bound : Nat) : Nat → Reader (List Expr)
  | 0 => Reader.tooDeep
  | n + 1 => do
    if (← Reader.peek).kind = .eof then
      return []
    else
      let stmt ← readStatement bound (read bound)
      if ← Reader.accept .semicolon then
        let stmts ← readSequence bound n
        return stmt :: stmts
      else
        return [stmt]

/-- **The expression that a source denotes.** -/
def parse (source : List Char) : Except SyntaxError Expr := Reader.readAll read source

/-- **The definition or expression that a source denotes.** -/
def parseProgram (source : List Char) : Except SyntaxError Expr :=
  Reader.readAll readProgram source

/-- **The statements that a source denotes.** -/
def parseStatements (source : List Char) : Except SyntaxError (List Expr) :=
  Reader.readAll (fun bound => readSequence bound bound) source

end LetPoly.Expr
