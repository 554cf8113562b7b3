import LetPoly.Expr.Reader

/-! # The grammar of the language

What a row of tokens stands for, said without a reader.  A token counts by its
**word**: the name, the numeral, the text or the fixed sign that it is, wherever it
stands in the source.

The rules give every phrase a level; the smaller it is, the tighter the phrase binds.

* Types: 1 for what stands by itself, 2 for applications, 3 for functions, 4 for
  schemes.
* Patterns: 1 for what stands by itself, 2 for lists.
* Expressions: 1 for what stands by itself, 2 for applications, 3 to 7 for the
  operators, 8 for `::`, 9 for functions, conditionals and matches, and 10 for
  definitions, so for statements of every kind.

What is a phrase of some level is also one of every looser level.  Applications and
operators associate to the left: their right part is one level tighter than their
left part.  Functions, conditionals and what stands after `::` reach as far as they
can.
-/

namespace LetPoly

/-! ## Words -/

/-- What a token is, wherever it stands. -/
inductive Word where
  | ident (name : String)
  | int (numeral : String)
  | string (content : String)
  | mark (kind : Token.Kind)
deriving DecidableEq, Repr

/-- The word of a token. -/
def Token.word (t : Token) : Word :=
  if t.kind = .ident then .ident t.literal
  else if t.kind = .int then .int t.literal
  else if t.kind = .string then .string t.literal
  else .mark t.kind

namespace Word

/-- The lexical class of a word. -/
def kind : Word → Token.Kind
  | .ident _ => .ident
  | .int _ => .int
  | .string _ => .string
  | .mark k => k

/-- Words between two signs. -/
def between (left right : Token.Kind) (w : List Word) : List Word :=
  .mark left :: (w ++ [.mark right])

/-- The words of items that semicolons separate; one may follow the last item. -/
inductive Separated : List (List Word) → List Word → Prop
  | last (w : List Word) : Separated [w] w
  | closed (w : List Word) : Separated [w] (w ++ [.mark .semicolon])
  | cons (v : List Word) {ws : List (List Word)} {w : List Word} (h : Separated ws w) :
      Separated (v :: ws) (v ++ .mark .semicolon :: w)

end Word

open Word

/-- Words, and the tree that they stand for. -/
structure Spelled (α : Type) where
  words : List Word
  tree : α

/-- The digits of the numeral write the word of 64 bits, which is not negative. -/
def Numeral (s : String) (n : Int64) : Prop :=
  0 ≤ n.toInt ∧ Text.Decimal.digits? s.toList = some n.toInt.toNat

/-! ## Types -/

/-- **The phrases that stand for types.** -/
inductive Ty.Phrase : Nat → List Word → Ty → Prop
  | base {x : String} (h : x ∈ Ty.baseNames) : Phrase 1 [.ident x] (.const x)
  | var {x : String} (h : x ∉ Ty.baseNames) : Phrase 1 [.ident x] (.var x)
  | paren {w : List Word} {t : Ty} (h : Phrase 4 w t) : Phrase 1 (between .lparen .rparen w) t
  | list {w : List Word} {t : Ty} (h : Phrase 4 w t) :
      Phrase 1 (between .lbracket .rbracket w) (.list t)
  | app {v w : List Word} {f a : Ty} (hf : Phrase 2 v f) (ha : Phrase 1 w a) :
      Phrase 2 (v ++ w) (.app f a)
  | arrow {v w : List Word} {a r : Ty} (ha : Phrase 2 v a) (hr : Phrase 4 w r) :
      Phrase 3 (v ++ .mark .arrow :: w) (.arrow a r)
  | dot {w : List Word} {x : String} {t : Ty} (h : Phrase 4 w t) :
      Phrase 4 (.ident x :: .mark .dot :: w) (.poly x t)
  | tfn {w : List Word} {x : String} {t : Ty} (h : Phrase 4 w t) :
      Phrase 4 (.mark .kwTfn :: .ident x :: .mark .arrow :: w) (.poly x t)
  | loosen {n : Nat} {w : List Word} {t : Ty} (h : Phrase n w t) : Phrase (n + 1) w t

/-! ## Patterns -/

/-- **The phrases that stand for patterns.** -/
inductive Pat.Phrase : Nat → List Word → Pat → Prop
  | number {s : String} {n : Int64} (h : Numeral s n) : Phrase 1 [.int s] (.number n)
  | string {s : String} : Phrase 1 [.string s] (.string s)
  | boolean {k : Token.Kind} {b : Bool} (h : k.name = boolText b) : Phrase 1 [.mark k] (.boolean b)
  | unit : Phrase 1 (between .lparen .rparen []) .unit
  | wildcard : Phrase 1 [.mark .underscore] .wildcard
  | ident {x : String} : Phrase 1 [.ident x] (.ident x)
  | nil : Phrase 1 (between .lbracket .rbracket []) .nil
  | paren {w : List Word} {p : Pat} (h : Phrase 2 w p) : Phrase 1 (between .lparen .rparen w) p
  | cons {v w : List Word} {p q : Pat} (hp : Phrase 1 v p) (hq : Phrase 2 w q) :
      Phrase 2 (v ++ .mark .cons :: w) (.cons p q)
  | loosen {n : Nat} {w : List Word} {p : Pat} (h : Phrase n w p) : Phrase (n + 1) w p

/-! ## Expressions -/

namespace Expr

/-- An ascription after its pattern, which may be absent. -/
inductive Ascription : List Word → Option Ty → Prop
  | none : Ascription [] none
  | some {w : List Word} {t : Ty} (h : Ty.Phrase 4 w t) : Ascription (.mark .colon :: w) (some t)

/-- **The head of a function**: an atomic pattern, or a pattern with its type in
parentheses. -/
inductive Head : List Word → Pat → Option Ty → Prop
  | plain {w : List Word} {p : Pat} (h : Pat.Phrase 1 w p) : Head w p none
  | typed {v w : List Word} {p : Pat} {t : Ty} (hp : Pat.Phrase 2 v p) (ht : Ty.Phrase 4 w t) :
      Head (between .lparen .rparen (v ++ .mark .colon :: w)) p (some t)

/-- The words of a case, from those of its pattern and its body. -/
def caseWords (arm : Spelled Pat × Spelled Expr) : List Word :=
  .mark .kwCase :: (arm.1.words ++ .mark .fatArrow :: arm.2.words)

/-- **The phrases that stand for expressions and statements.** -/
inductive Phrase : Nat → List Word → Expr → Prop
  | number {s : String} {n : Int64} (h : Numeral s n) : Phrase 1 [.int s] (.number n)
  | string {s : String} : Phrase 1 [.string s] (.string s)
  | boolean {k : Token.Kind} {b : Bool} (h : k.name = boolText b) : Phrase 1 [.mark k] (.boolean b)
  | unit : Phrase 1 (between .lparen .rparen []) .unit
  | nil : Phrase 1 (between .lbracket .rbracket []) .nil
  | ident {x : String} : Phrase 1 [.ident x] (.ident x)
  | paren {w : List Word} {e : Expr} (h : Phrase 9 w e) : Phrase 1 (between .lparen .rparen w) e
  /-- A block has at least one statement, and the last is not a definition. -/
  | block {w : List Word} {stmts : List (Spelled Expr)}
      (hs : ∀ s ∈ stmts, Phrase 10 s.words s.tree) (hw : Separated (stmts.map (·.words)) w)
      (hlast : ∀ s ∈ stmts.getLast?, s.tree.isDefinition = false) :
      Phrase 1 (between .lbrace .rbrace w) (.block (stmts.map (·.tree)))
  | app {v w : List Word} {f a : Expr} (hf : Phrase 2 v f) (ha : Phrase 1 w a) :
      Phrase 2 (v ++ w) (.app f a)
  | binary {n : Nat} {v w : List Word} {k : Token.Kind} {op : Op} {l r : Expr}
      (hop : k.name = op.spelling) (hlevel : op.level = n + 1) (hl : Phrase (n + 1) v l)
      (hr : Phrase n w r) : Phrase (n + 1) (v ++ .mark k :: w) (.binary op l r)
  | cons {v w : List Word} {h t : Expr} (hh : Phrase 7 v h) (ht : Phrase 9 w t) :
      Phrase 8 (v ++ .mark .cons :: w) (.cons h t)
  | lambda {v w : List Word} {p : Pat} {a : Option Ty} {b : Expr} (hp : Head v p a)
      (hb : Phrase 9 w b) : Phrase 9 (v ++ .mark .fatArrow :: w) (.lambda p a b)
  | cond {u v w : List Word} {c y n : Expr} (hc : Phrase 9 u c) (hy : Phrase 9 v y)
      (hn : Phrase 9 w n) :
      Phrase 9 (.mark .kwIf :: (u ++ .mark .kwThen :: (v ++ .mark .kwElse :: w))) (.cond c y n)
  /-- A match has at least one case. -/
  | select {v w : List Word} {e : Expr} {arms : List (Spelled Pat × Spelled Expr)}
      (he : Phrase 9 v e) (hp : ∀ arm ∈ arms, Pat.Phrase 2 arm.1.words arm.1.tree)
      (hb : ∀ arm ∈ arms, Phrase 9 arm.2.words arm.2.tree)
      (hw : Separated (arms.map caseWords) w) :
      Phrase 9 (.mark .kwMatch :: (v ++ .mark .kwWith :: between .lbrace .rbrace w))
        (.select e (arms.map fun arm => (arm.1.tree, arm.2.tree)))
  | define {u v w : List Word} {k : Token.Kind} {binder : Binder} {p : Pat} {a : Option Ty}
      {e : Expr} (hk : k.name = binder.spelling) (hp : Pat.Phrase 1 u p) (ha : Ascription v a)
      (he : Phrase 9 w e) :
      Phrase 10 (.mark k :: (u ++ v ++ .mark .assign :: w)) (.define binder p a e)
  | loosen {n : Nat} {w : List Word} {e : Expr} (h : Phrase n w e) : Phrase (n + 1) w e

end Expr

end LetPoly
