import LetPoly.Expr.Basic
import LetPoly.SortedMap

/-! # Values

What expressions evaluate to: words, truth values, texts, the unit, lists, and
functions closed over the environment of their definition.  An environment holds
one value for each of its names, in increasing order of names.
-/

namespace LetPoly

inductive Value where
  | int (value : Int64)
  | bool (value : Bool)
  | string (value : String)
  | unit
  | list (elems : List Value)
  | closure (param : Pat) (body : Expr) (env : List (String × Value))
deriving Inhabited

/-- The values of names. -/
abbrev Env := SortedMap Value

namespace Value

/-- The name of the kind of a value. -/
def kindName : Value → String
  | .int _ => "Int"
  | .bool _ => "Bool"
  | .string _ => "String"
  | .unit => "Unit"
  | .list _ => "List"
  | .closure .. => "Function"

/-- The elements of a list; other values have none. -/
def elements : Value → List Value
  | .list vs => vs
  | _ => []

mutual
/-- **The text of a value.** -/
def text : Value → String
  | .int n => Text.Decimal.word n
  | .bool b => boolText b
  | .string s => Text.literal s
  | .unit => "()"
  | .list vs => "[" ++ ", ".intercalate (texts vs) ++ "]"
  | .closure .. => "<fun>"

def texts : List Value → List String
  | [] => []
  | v :: vs => v.text :: texts vs
end

mutual
/-- **Two values are the same**, element by element in lists.  A function is the
same as nothing, not even as itself. -/
def equal : Value → Value → Bool
  | .int m, .int n => m == n
  | .bool a, .bool b => a == b
  | .string s, .string t => s == t
  | .unit, .unit => true
  | .list vs, .list ws => equalLists vs ws
  | _, _ => false

def equalLists : List Value → List Value → Bool
  | [], [] => true
  | v :: vs, w :: ws => v.equal w && equalLists vs ws
  | _, _ => false
end

/-- **Matches a value against a pattern**, and binds the pattern's names.  The
environment holds what was bound also where the match fails in the end. -/
def bind : Pat → Value → Env → Env × Bool
  | .wildcard, _, env => (env, true)
  | .ident x, v, env => (env.insert x v, true)
  | .number m, .int n, env => (env, m == n)
  | .string s, .string t, env => (env, s == t)
  | .boolean a, .bool b, env => (env, a == b)
  | .unit, .unit, env => (env, true)
  | .nil, .list [], env => (env, true)
  | .cons h t, .list (v :: vs), env =>
    let (env, ok) := bind h v env
    if ok then bind t (.list vs) env else (env, false)
  | _, _, env => (env, false)

end Value

end LetPoly
