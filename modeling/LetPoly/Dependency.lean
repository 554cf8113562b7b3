import LetPoly.Expr.Placement
import LetPoly.Graph
import LetPoly.SortedMap

/-! # Dependencies between statements

A statement depends on the top-level definitions that it refers to.  A reference
goes to the innermost binding: the names of a function, of a case or of a block's
definition hide top-level definitions.

The analysis holds the binding of each name that is in scope.  Where a local name
is bound, what it hides is put on the stash; at the end of its scope it is taken
back from there.
-/

namespace LetPoly

/-- Where a name is bound. -/
inductive Origin where
  /-- By the top-level statement with this number, counted from zero. -/
  | statement (index : Nat)
  | inner
deriving DecidableEq, Repr

/-- Misplaced definitions in a statement, counted from zero. -/
structure Unanalyzable where
  index : Nat
  misplacement : Misplacement
deriving DecidableEq, Repr

def Unanalyzable.message (e : Unanalyzable) : String :=
  "statement " ++ Text.Decimal.natural (e.index + 1) ++ ": " ++ e.misplacement.message

structure Dependency where
  /-- The binding of each name in scope. -/
  scopes : SortedMap Origin := []
  /-- What local names hide, the latest first; `none` for a name that was not bound. -/
  stash : List (String × Option Origin) := []
  /-- The statements that each statement refers to. -/
  graph : Graph := []
  /-- The names without a binding, in order of first reference. -/
  free : List String := []
  error : Option Unanalyzable := none

namespace Dependency

/-- Binds a local name. -/
def bindInner (a : Dependency) (x : String) : Dependency :=
  { a with stash := (x, a.scopes.get? x) :: a.stash, scopes := a.scopes.insert x .inner }

/-- Binds the names of a pattern. -/
def bindPattern (a : Dependency) (p : Pat) : Dependency := p.names.foldl bindInner a

/-- Puts back what a name had hidden. -/
def restore (scopes : SortedMap Origin) : String × Option Origin → SortedMap Origin
  | (x, some o) => scopes.insert x o
  | (x, none) => scopes.erase x

/-- Ends the scope of the latest local names. -/
def unbind (a : Dependency) (count : Nat) : Dependency :=
  { a with
    scopes := (a.stash.take count).foldl restore a.scopes
    stash := a.stash.drop count }

/-- A reference of a statement to a name. -/
def refer (index : Nat) (a : Dependency) (x : String) : Dependency :=
  match a.scopes.get? x with
  | some (.statement target) => { a with graph := a.graph.addEdge index target }
  | some .inner => a
  | none => if x ∈ a.free then a else { a with free := a.free ++ [x] }

mutual
/-- The references of an expression in a statement. -/
def expression (index : Nat) (a : Dependency) : Expr → Dependency
  | .ident x => refer index a x
  | .binary _ l r => expression index (expression index a l) r
  | .cons h t => expression index (expression index a h) t
  | .cond c y n => expression index (expression index (expression index a c) y) n
  | .lambda p _ b => (expression index (a.bindPattern p) b).unbind p.names.length
  | .app f e => expression index (expression index a f) e
  | .block ss =>
    let (a, count) := block index a ss
    a.unbind count
  | .select v cases => arms index (expression index a v) cases
  | _ => a

/-- The references of the statements of a block, and how many names they bind. -/
def block (index : Nat) (a : Dependency) : List Expr → Dependency × Nat
  | [] => (a, 0)
  | .define _ p _ v :: ss =>
    let (a, count) := block index ((expression index a v).bindPattern p) ss
    (a, p.names.length + count)
  | e :: ss => block index (expression index a e) ss

/-- The references of the cases of a match. -/
def arms (index : Nat) (a : Dependency) : List (Pat × Expr) → Dependency
  | [] => a
  | (p, b) :: cases =>
    arms index ((expression index (a.bindPattern p) b).unbind p.names.length) cases
end

/-- A top-level statement: its references, then the names that it defines. -/
def statement (index : Nat) (a : Dependency) : Expr → Dependency
  | .define _ p _ v =>
    let a := expression index a v
    { a with scopes := p.names.foldl (fun m x => m.insert x (.statement index)) a.scopes }
  | e => expression index a e

/-- The statements from a number on, up to the first with a misplaced definition. -/
def statements (a : Dependency) (index : Nat) : List Expr → Dependency × Option Unanalyzable
  | [] => (a, none)
  | e :: es =>
    match e.validate with
    | .error m =>
      let error : Unanalyzable := ⟨index, m⟩
      ({ a with error := some error }, some error)
    | .ok () => statements (statement index a e) (index + 1) es

/-- **Analyses a program**, going on from the names in scope, and tells what was
wrong. -/
def analyze (a : Dependency) (program : List Expr) : Dependency × Option Unanalyzable :=
  statements { a with graph := .empty program.length } 0 program

/-- **For each statement, whether this one depends on it**, directly or through
others. -/
def live (a : Dependency) (index : Nat) : List Bool := a.graph.reachable [index]

/-- The statements that this one depends on, in the order of the program. -/
def dependencies (a : Dependency) (index : Nat) : List Nat :=
  (List.range a.graph.length).filter fun i => i != index && ((a.live index)[i]?).getD false

end Dependency

/-- **The program without the statements that its last one does not depend on.**  A
program that ends with a definition is left as it is. -/
def prune (program : List Expr) : Except Unanalyzable (List Expr) :=
  match program.getLast? with
  | none => .ok program
  | some last =>
    if last.isDefinition then
      .ok program
    else
      match Dependency.analyze {} program with
      | (_, some error) => .error error
      | (a, none) =>
        let live := a.live (program.length - 1)
        .ok ((program.zip live).filterMap fun (e, kept) => if kept then some e else none)

end LetPoly
