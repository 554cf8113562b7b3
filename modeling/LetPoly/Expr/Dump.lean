import LetPoly.Expr.Basic
import LetPoly.Text.Decimal
import LetPoly.Text.Quoted

/-! # Dumps of trees

A dump shows a tree field by field, one field a line, with two blanks of indent
for each level.  Every value stands after the name of its type in parentheses:
`(*ast.Number)` for a node, `(int64)` for a word.

The tree is first turned into a **layout**, which knows nothing of the language,
and the layout is printed.

Nodes without fields are all alike, and they count as one node.  Once shown it is on
display until a node at its depth or further out is reached; further in it is not
shown again meanwhile.
-/

namespace LetPoly

/-- The shape of a dump: text that fits a line, a node without fields, or labelled
parts between an opening and a closing line, which may be a node. -/
inductive Layout where
  | line (text : String)
  | bare (kind : String)
  | group (isNode : Bool) (opening : String) (parts : List (String × Layout)) (closing : String)

namespace Layout

/-- The blanks before a line. -/
def indent (depth : Nat) : String := String.ofList (List.replicate (2 * depth) ' ')

/-- The depth at which a node without fields is on display, when a node at some depth
is reached. -/
def stillShown (depth : Nat) (shown : Option Nat) : Option Nat := shown.filter (· < depth)

mutual
/-- The text of a layout whose first line stands at a depth.  Given is where a node
without fields is on display before it, and said where one is after it. -/
def print (depth : Nat) (shown : Option Nat) : Layout → String × Option Nat
  | .line s => (s, shown)
  | .bare kind =>
    match stillShown depth shown with
    | some d => ("(*" ++ kind ++ ")(<already shown>)", some d)
    | none => ("(*" ++ kind ++ ")(\x7b\n" ++ indent depth ++ "\x7d)", some depth)
  | .group isNode opening parts closing =>
    let shown := if isNode then stillShown depth shown else shown
    let (text, shown) := printParts (depth + 1) shown parts
    (opening ++ "\n" ++ text ++ indent depth ++ closing, shown)

/-- The parts on lines of their own, with a comma after all but the last. -/
def printParts (depth : Nat) (shown : Option Nat) : List (String × Layout) → String × Option Nat
  | [] => ("", shown)
  | [(label, l)] =>
    let (text, shown) := l.print depth shown
    (indent depth ++ label ++ text ++ "\n", shown)
  | (label, l) :: parts =>
    let (text, shown) := l.print depth shown
    let (texts, shown) := printParts depth shown parts
    (indent depth ++ label ++ text ++ ",\n" ++ texts, shown)
end

/-- A value that fits a line, after its type. -/
def value (type text : String) : Layout := .line ("(" ++ type ++ ") " ++ text)

/-- A text, with its length in bytes unless it is empty. -/
def text (s : String) : Layout :=
  let size := if s.isEmpty then "" else "(len=" ++ Text.Decimal.natural s.utf8ByteSize ++ ") "
  value "string" (size ++ Text.escaped s)

def word (n : Int64) : Layout := value "int64" (Text.Decimal.word n)

def truth (b : Bool) : Layout := value "bool" (if b then "true" else "false")

/-- A node with its fields. -/
def node (kind : String) (fields : List (String × Layout)) : Layout :=
  .group true ("(*" ++ kind ++ ")(\x7b") (fields.map fun (name, l) => (name ++ ": ", l)) "\x7d)"

/-- A sequence of parts without labels. -/
def sequence (type : String) (items : List Layout) : Layout :=
  let size := if items.isEmpty then "" else "(len=" ++ Text.Decimal.natural items.length ++ ") "
  .group false ("([]" ++ type ++ ") " ++ size ++ "\x7b") (items.map fun l => ("", l)) "\x7d"

/-- A place without a node. -/
def absent (type : String) : Layout := value type "<nil>"

end Layout

namespace Ty

def layout : Ty → Layout
  | .const x => .node "types.Const" [("Name", .text x)]
  | .var x => .node "types.Var" [("Name", .text x)]
  | .arrow a r => .node "types.Arrow" [("Arg", a.layout), ("Return", r.layout)]
  | .app f a => .node "types.App" [("Func", f.layout), ("Arg", a.layout)]
  | .poly x t => .node "types.Poly" [("Bound", .text x), ("Body", t.layout)]
  | .list t => .node "types.List" [("Elem", t.layout)]
  | .missing => .absent "types.Type"

/-- The layout of an ascription. -/
def layout? : Option Ty → Layout
  | some t => t.layout
  | none => .absent "types.Type"

end Ty

namespace Pat

def layout : Pat → Layout
  | .number n => .node "ast.NumberPat" [("Value", .word n)]
  | .string s => .node "ast.StringPat" [("Value", .text s)]
  | .boolean b => .node "ast.BooleanPat" [("Value", .truth b)]
  | .unit => .bare "ast.UnitPat"
  | .wildcard => .bare "ast.Wildcard"
  | .ident x => .node "ast.IdPat" [("Name", .text x)]
  | .cons h t => .node "ast.ConsPat" [("Head", h.layout), ("Tail", t.layout)]
  | .nil => .bare "ast.NilPat"
  | .missing => .absent "ast.Pat"

end Pat

namespace Expr

mutual
def layout : Expr → Layout
  | .number n => .node "ast.Number" [("Value", .word n)]
  | .string s => .node "ast.String" [("Value", .text s)]
  | .boolean b => .node "ast.Boolean" [("Value", .truth b)]
  | .unit => .bare "ast.Unit"
  | .nil => .bare "ast.Nil"
  | .ident x => .node "ast.Identifier" [("Name", .text x)]
  | .binary op l r =>
    .node "ast.BinOp"
      [("Op", .value "ast.Op" op.spelling), ("Left", l.layout), ("Right", r.layout)]
  | .cons h t => .node "ast.Cons" [("Head", h.layout), ("Tail", t.layout)]
  | .cond c y n => .node "ast.If" [("Cond", c.layout), ("Then", y.layout), ("Else", n.layout)]
  | .lambda p t b =>
    .node "ast.Func" [("Pat", p.layout), ("Annotation", Ty.layout? t), ("Body", b.layout)]
  | .app f a => .node "ast.App" [("Func", f.layout), ("Arg", a.layout)]
  | .block ss => .node "ast.Block" [("Stmts", .sequence "ast.Expr" (layouts ss))]
  | .select v arms =>
    .node "ast.Match"
      [("Value", v.layout), ("Cases", .sequence "ast.MatchCase" (armLayouts arms))]
  | .define b p t v =>
    .node "ast.Defn"
      [("Kind", .value "ast.DefnKind" b.spelling), ("Pat", p.layout),
        ("Annotation", Ty.layout? t), ("Value", v.layout)]
  | .missing => .absent "ast.Expr"

def layouts : List Expr → List Layout
  | [] => []
  | e :: es => e.layout :: layouts es

/-- An arm is a group without the sign of a node. -/
def armLayouts : List (Pat × Expr) → List Layout
  | [] => []
  | (p, e) :: arms =>
    .group false "(ast.MatchCase) \x7b" [("Pat: ", p.layout), ("Body: ", e.layout)] "\x7d"
      :: armLayouts arms
end

/-- **The dump of an expression.** -/
def dump (e : Expr) : String := (e.layout.print 0 none).1

end Expr

end LetPoly
