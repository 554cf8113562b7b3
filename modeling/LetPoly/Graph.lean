/-! # Directed graphs

A graph lists, for each of its vertices, the vertices that an edge leads to, in
the order in which the edges were added.  Vertices are numbered from zero.
-/

namespace LetPoly

/-- The successors of each vertex. -/
abbrev Graph := List (List Nat)

namespace Graph

/-- The graph with this many vertices and no edges. -/
def empty (vertices : Nat) : Graph := List.replicate vertices []

/-- The vertices that an edge leads to. -/
def successors (g : Graph) (v : Nat) : List Nat := (g[v]?).getD []

def hasEdge (g : Graph) (source target : Nat) : Bool := target ∈ g.successors source

/-- Adds an edge, unless it is there. -/
def addEdge (g : Graph) (source target : Nat) : Graph :=
  if g.hasEdge source target then g else g.modify source (· ++ [target])

/-- The graph with every edge turned round. -/
def transpose (g : Graph) : Graph :=
  (List.range g.length).map fun v =>
    g.zipIdx.flatMap fun (successors, u) => (successors.filter (· == v)).map fun _ => u

/-- What a traversal has met: the vertices that it has entered, and those that it
has left, in the order of leaving. -/
structure Visit where
  entered : List Nat := []
  left : List Nat := []

/-- Enters a vertex, unless it has been entered, then everything behind it, and
leaves it.  The traversal goes no deeper than the bound. -/
def visit (g : Graph) : (bound : Nat) → Visit → Nat → Visit
  | 0, st, _ => st
  | n + 1, st, v =>
    if v ∈ st.entered then st
    else
      let st := (g.successors v).foldl (visit g n) { st with entered := v :: st.entered }
      { st with left := st.left ++ [v] }

/-- A traversal from some vertices, one after the other.  No path without a
repetition is longer than the number of vertices. -/
def traverse (g : Graph) (roots : List Nat) : Visit := roots.foldl (visit g g.length) {}

/-- **The vertices that can be reached from a vertex**, each after its successors
as far as cycles allow. -/
def postOrder (g : Graph) (v : Nat) : List Nat := (g.traverse [v]).left

/-- The same vertices in the opposite order. -/
def reversePostOrder (g : Graph) (v : Nat) : List Nat := (g.postOrder v).reverse

/-- **For each vertex, whether it can be reached from one of the roots.** -/
def reachable (g : Graph) (roots : List Nat) : List Bool :=
  let st := g.traverse roots
  (List.range g.length).map (· ∈ st.entered)

end Graph

end LetPoly
