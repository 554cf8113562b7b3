import LetPoly.Ty.Basic

/-! # Type environments

An environment binds names to schemes and says from which number on fresh
variables may be taken.  A later binding hides the earlier ones of its name, which
stay in the environment.
-/

namespace LetPoly

structure TypeEnv where
  /-- The number of the next fresh variable, as it was set.  Numbers below one mean
  one. -/
  next : Int64 := 0
  /-- The bindings, the latest first. -/
  bindings : List (String × Ty) := []
deriving DecidableEq, Repr, Inhabited

namespace TypeEnv

/-- The environment to start from: no bindings, variables from number one. -/
def empty : TypeEnv := { next := 1 }

/-- The number of the next fresh variable. -/
def nextNumber (env : TypeEnv) : Int64 := if env.next < 1 then 1 else env.next

/-- Adds a binding. -/
def set (env : TypeEnv) (x : String) (t : Ty) : TypeEnv :=
  { next := env.nextNumber, bindings := (x, t) :: env.bindings }

/-- The scheme of a name. -/
def get? (env : TypeEnv) (x : String) : Option Ty := env.bindings.lookup x

/-- The bindings, the earliest first. -/
def entries (env : TypeEnv) : List (String × Ty) := env.bindings.reverse

/-- The number of bindings, hidden ones included. -/
def size (env : TypeEnv) : Nat := env.bindings.length

/-- Changes every scheme. -/
def map (env : TypeEnv) (f : Ty → Ty) : TypeEnv :=
  { next := env.nextNumber, bindings := env.bindings.map fun (x, t) => (x, f t) }

/-- The bound names in increasing order, each once. -/
def names (env : TypeEnv) : List String :=
  (env.bindings.map (·.1)).eraseDups.mergeSort (fun x y => x ≤ y)

/-- The same bindings, with fresh variables from another number on. -/
def withNext (env : TypeEnv) (next : Int64) : TypeEnv := { env with next }

/-- The bindings of both; those of the first hide those of the second. -/
def union (a b : TypeEnv) : TypeEnv :=
  { next := if b.nextNumber < a.nextNumber then a.nextNumber else b.nextNumber
    bindings := a.bindings ++ b.bindings }

/-- The variables free in some scheme. -/
def freeVars (env : TypeEnv) : List String := env.bindings.flatMap fun (_, t) => t.freeVars

end TypeEnv

end LetPoly
