import LetPoly.Expr.Printer
import LetPoly.Value.Basic

/-! # Evaluation

Operands are evaluated from left to right, arguments before the call; `&&` and
`||` leave their right operand alone where the left one decides.  Types are not
consulted: an operation on values of the wrong kind fails when it is reached.

Some expressions have no value because their evaluation does not end.  Evaluation
is therefore given a bound on its depth, and reaching the bound is a failure of
its own kind, `exhausted`.  The depth is that of expressions and calls inside each
other: the statements of a block stand beside each other and add nothing to it.
-/

namespace LetPoly

/-- The reasons for which an evaluation fails. -/
inductive RuntimeError where
  | unbound (name : String)
  | notList (value : Value)
  | notTest (value : Value)
  | notLeftBool (op : Op) (value : Value)
  | notRightBool (op : Op) (value : Value)
  | notInts (op : Op) (left right : Value)
  | divisionByZero
  | noCase (value : Value)
  | notFunction (value : Value)
  | refusedArgument (value : Value) (param : Pat)
  | refusedValue (value : Value) (pat : Pat)
  | emptyBlock
  | endsInDefinition (pat : Pat)
  | strayDefinition (pat : Pat)
  | emptyExpression
  | unknownOperator (op : Op)
  | exhausted

def RuntimeError.message : RuntimeError → String
  | .unbound x => "Variable " ++ x ++ " not found"
  | .notList v => "Expected a list after ::, found " ++ v.text
  | .notTest v => "Expected Bool in condition, found " ++ v.text
  | .notLeftBool op v => "Expected Bool on the left of " ++ op.spelling ++ ", found " ++ v.text
  | .notRightBool op v => "Expected Bool on the right of " ++ op.spelling ++ ", found " ++ v.text
  | .notInts op l r =>
    "Expected Int operands for " ++ op.spelling ++ ", found " ++ l.text ++ " and " ++ r.text
  | .divisionByZero => "Division by zero"
  | .noCase v => "No case matches " ++ v.text
  | .notFunction v => "Cannot apply " ++ v.text ++ ", which is not a function"
  | .refusedArgument v p => "Argument " ++ v.text ++ " does not match parameter " ++ p.text
  | .refusedValue v p => "Value " ++ v.text ++ " does not match pattern " ++ p.text
  | .emptyBlock => "Empty block"
  | .endsInDefinition p => "Block must end with an expression, not the definition of " ++ p.text
  | .strayDefinition p => "Definition of " ++ p.text ++ " is only allowed as a block statement"
  | .emptyExpression => "Empty expression"
  | .unknownOperator op => "Unsupported operator " ++ op.spelling
  | .exhausted => "Evaluation is nested too deeply"

namespace Value

/-- The value with which the left operand of a logical operator decides it. -/
def decides (op : Op) (b : Bool) : Bool := if op = .and then !b else b

/-- An operation on two words. -/
def operateInts (op : Op) (l r : Int64) : Except RuntimeError Value :=
  match op with
  | .plus => .ok (.int (l + r))
  | .minus => .ok (.int (l - r))
  | .times => .ok (.int (l * r))
  | .divide => if r = 0 then .error .divisionByZero else .ok (.int (l / r))
  | .less => .ok (.bool (l < r))
  | .lessEq => .ok (.bool (l ≤ r))
  | .greater => .ok (.bool (r < l))
  | .greaterEq => .ok (.bool (r ≤ l))
  | op => .error (.unknownOperator op)

/-- An operation that is not a logical one. -/
def operate (op : Op) (l r : Value) : Except RuntimeError Value :=
  if op = .equal then .ok (.bool (l.equal r))
  else if op = .notEqual then .ok (.bool !(l.equal r))
  else match l, r with
    | .int m, .int n => operateInts op m n
    | l, r => .error (.notInts op l r)

/-- The cell of a list. -/
def cell (head : Value) : Value → Except RuntimeError Value
  | .list vs => .ok (.list (head :: vs))
  | v => .error (.notList v)

/-- The first case that accepts a value, with the environment of its body. -/
def chosen? (v : Value) (env : Env) : List (Pat × Expr) → Option (Env × Expr)
  | [] => none
  | (p, b) :: arms =>
    match bind p v env with
    | (env', true) => some (env', b)
    | (_, false) => chosen? v env arms

/-- The body of a function to be evaluated in a call, and its environment. -/
def enter (func arg : Value) : Except RuntimeError (Env × Expr) :=
  match func with
  | .closure p b env =>
    match bind p arg env with
    | (env, true) => .ok (env, b)
    | (_, false) => .error (.refusedArgument arg p)
  | v => .error (.notFunction v)

/-- The environment after a definition with this value. -/
def bindValue (p : Pat) (v : Value) (env : Env) : Except RuntimeError Env :=
  match bind p v env with
  | (env, true) => .ok env
  | (_, false) => .error (.refusedValue v p)

/-- Goes through the statements of a block up to the last one: the environment of that
one, and itself.  The others are evaluated in the given way. -/
def leadUp (value : Env → Expr → Except RuntimeError Value) :
    Env → List Expr → Except RuntimeError (Env × Expr)
  | _, [] => .error .emptyBlock
  | _, [.define _ p _ _] => .error (.endsInDefinition p)
  | env, [e] => .ok (env, e)
  | env, .define _ p _ v :: es => do
    let v ← value env v
    let env ← bindValue p v env
    leadUp value env es
  | env, e :: es => do
    let _ ← value env e
    leadUp value env es

/-- **The value of an expression**, within a bound on the depth of evaluation. -/
def eval : (bound : Nat) → Env → Expr → Except RuntimeError Value
  | 0, _, _ => .error .exhausted
  | n + 1, env, e =>
    match e with
    | .number k => .ok (.int k)
    | .string s => .ok (.string s)
    | .boolean b => .ok (.bool b)
    | .unit => .ok .unit
    | .nil => .ok (.list [])
    | .ident x =>
      match env.get? x with
      | some v => .ok v
      | none => .error (.unbound x)
    | .binary op l r => do
      let lv ← eval n env l
      if op.isLogical then
        match lv with
        | .bool b =>
          if decides op b then
            return lv
          else
            match ← eval n env r with
            | .bool c => return .bool c
            | rv => throw (.notRightBool op rv)
        | _ => throw (.notLeftBool op lv)
      else
        let rv ← eval n env r
        operate op lv rv
    | .cons h t => do
      let hv ← eval n env h
      let tv ← eval n env t
      cell hv tv
    | .cond c y no => do
      match ← eval n env c with
      | .bool b => if b then eval n env y else eval n env no
      | v => throw (.notTest v)
    | .lambda p _ b => .ok (.closure p b env)
    | .app f a => do
      let fv ← eval n env f
      let av ← eval n env a
      let (env, body) ← enter fv av
      eval n env body
    | .block ss => do
      let (env, last) ← leadUp (eval n) env ss
      eval n env last
    | .select v arms => do
      let value ← eval n env v
      match chosen? value env arms with
      | some (env, body) => eval n env body
      | none => throw (.noCase value)
    | .define _ p _ _ => .error (.strayDefinition p)
    | .missing => .error .emptyExpression

/-- The bound that programs are run with: no evaluation that ends is expected to nest
so deeply. -/
def programBound : Nat := 10000000

/-- **The environment after a definition, and the value that was defined.** -/
def evalDefinition (bound : Nat) (env : Env) (d : Definition) :
    Except RuntimeError (Env × Value) := do
  let v ← eval bound env d.value
  let env ← bindValue d.pat v env
  return (env, v)

/-- **The value of a call.** -/
def apply (bound : Nat) (func arg : Value) : Except RuntimeError Value := do
  let (env, body) ← enter func arg
  eval bound env body

end Value

end LetPoly
