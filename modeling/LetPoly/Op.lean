/-! # Binary operators

The twelve operators of the language, and an **unknown** one for a tree whose
operator is none of them.  The level of an operator says how tightly it binds:
3 for products, 4 for sums, 5 for comparisons, 6 for conjunction, 7 for
disjunction.
-/

namespace LetPoly

inductive Op where
  | plus | minus | times | divide
  | less | lessEq | greater | greaterEq | equal | notEqual
  | and | or
  | unknown
deriving DecidableEq, Repr, Inhabited

namespace Op

/-- The operators of the language, in the order in which they are numbered. -/
def all : List Op :=
  [.plus, .minus, .times, .divide, .less, .lessEq, .greater, .greaterEq, .equal, .notEqual,
    .and, .or]

/-- How an operator is spelled. -/
def spelling : Op → String
  | .plus => "+"
  | .minus => "-"
  | .times => "*"
  | .divide => "/"
  | .less => "<"
  | .lessEq => "<="
  | .greater => ">"
  | .greaterEq => ">="
  | .equal => "=="
  | .notEqual => "!="
  | .and => "&&"
  | .or => "||"
  | .unknown => "<invalid-op>"

/-- The operator with a spelling. -/
def ofSpelling (s : String) : Op := (all.find? (·.spelling == s)).getD .unknown

/-- The operator with a number, counted from zero. -/
def ofNumber (i : Int) : Op := if i < 0 then .unknown else (all[i.toNat]?).getD .unknown

/-- One of `+ - * /`. -/
def isArithmetic : Op → Bool
  | .plus | .minus | .times | .divide => true
  | _ => false

/-- One of `< <= > >= == !=`. -/
def isRelational : Op → Bool
  | .less | .lessEq | .greater | .greaterEq | .equal | .notEqual => true
  | _ => false

/-- One of `&& ||`. -/
def isLogical : Op → Bool
  | .and | .or => true
  | _ => false

/-- How tightly an operator binds; the smaller, the tighter. -/
def level : Op → Nat
  | .times | .divide => 3
  | .plus | .minus => 4
  | .less | .lessEq | .greater | .greaterEq | .equal | .notEqual => 5
  | .and => 6
  | .or | .unknown => 7

end Op

end LetPoly
