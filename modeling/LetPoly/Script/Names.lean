import LetPoly.Text.Decimal

/-! # Names in scripts

Every binding of a program gets a name of its own in the script: the first of a
source name keeps it, the later ones are numbered after a dollar sign.  A name
that means something else in a script gets a dollar sign at its end.  Values
without a source name are held by temporaries, a dollar sign with a number.
-/

namespace LetPoly.Script

/-- The names that a script must not bind. -/
def reserved : List String := [
  "arguments", "await", "break", "case", "catch", "class", "const", "continue", "debugger",
  "default", "delete", "do", "else", "enum", "eval", "export", "extends", "false", "finally",
  "for", "function", "if", "implements", "import", "in", "instanceof", "interface", "let", "new",
  "null", "package", "private", "protected", "public", "return", "static", "super", "switch",
  "this", "throw", "true", "try", "typeof", "undefined", "var", "void", "while", "with", "yield",
  "NaN", "Infinity", "Math", "console"]

/-- A source name as a script may write it. -/
def mangle (x : String) : String := if x ∈ reserved then x ++ "$" else x

/-- The names given so far. -/
structure Names where
  /-- How many bindings each source name has had. -/
  counts : List (String × Nat) := []
  /-- How many temporaries there are. -/
  temps : Nat := 0
deriving Repr

namespace Names

/-- How many bindings a source name has had. -/
def count (ns : Names) (x : String) : Nat := (ns.counts.lookup x).getD 0

/-- The name of the `n`-th further binding of a source name. -/
def numbered (x : String) (n : Nat) : String :=
  if n = 0 then mangle x else mangle x ++ "$" ++ Text.Decimal.natural n

/-- A name for a new binding of a source name. -/
def fresh (ns : Names) (x : String) : String × Names :=
  (numbered x (ns.count x), { ns with counts := (x, ns.count x + 1) :: ns.counts })

/-- A name for a value without a source name. -/
def temp (ns : Names) : String × Names :=
  ("$" ++ Text.Decimal.natural ns.temps, { ns with temps := ns.temps + 1 })

end Names

/-- The script names of the source names that are bound, the innermost first. -/
abbrev Scope := List (String × String)

/-- The script name of an occurrence of a source name. -/
def Scope.resolve (sc : Scope) (x : String) : String := (sc.lookup x).getD (mangle x)

end LetPoly.Script
