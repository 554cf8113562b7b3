import LetPoly.Script.Term
import LetPoly.Token.Lexer

/-! # The grammar of scripts

The part of the ECMAScript grammar that scripts are written in, in its two layers.  A text
is divided into words by the lexical grammar: at each place the longest word that is there
is taken, and blanks are left out (`Scans`).  Rows of words are derived by the syntactic
grammar (`Phrase`): literals, object literals, calls, conditional and binary expressions,
arrow functions, and blocks of declarations and statements.

An expression that stands as a statement, or as the body of an arrow function, does not
start with a brace, which would open a block there.
-/

namespace LetPoly.Script

/-! ## Words -/

/-- A character that a name may start with. -/
def isNameStart (c : Char) : Bool := Token.isLetter c || c = '$'

/-- A character that a name may go on with. -/
def isNamePart (c : Char) : Bool := isNameStart c || Text.Decimal.isDigit c

/-- A name, reserved or not. -/
def isName (w : String) : Bool :=
  match w.toList with
  | [] => false
  | c :: cs => isNameStart c && cs.all isNamePart

/-- The reserved words; those of the last line are reserved in strict code. -/
def keywords : List String := [
  "await", "break", "case", "catch", "class", "const", "continue", "debugger", "default",
  "delete", "do", "else", "enum", "export", "extends", "false", "finally", "for", "function",
  "if", "import", "in", "instanceof", "new", "null", "return", "super", "switch", "this",
  "throw", "true", "try", "typeof", "var", "void", "while", "with", "yield",
  "implements", "interface", "let", "package", "private", "protected", "public", "static"]

/-- A name that may refer to a variable or bind it. -/
def isIdentifier (w : String) : Bool := isName w && !keywords.contains w

/-- A decimal numeral, without leading zeros. -/
def isNumeral (w : String) : Bool :=
  match w.toList with
  | [] => false
  | c :: cs => Text.Decimal.isDigit c && cs.all Text.Decimal.isDigit && (c != '0' || cs.isEmpty)

/-- A digit of base sixteen, in either case. -/
def isHexDigit (c : Char) : Bool :=
  Text.Decimal.isDigit c || ('a' ≤ c && c ≤ 'f') || ('A' ≤ c && c ≤ 'F')

/-- A character that may follow a backslash as it stands: neither a digit nor the start of
an escape by code nor the end of a line. -/
def isEscape (c : Char) : Bool :=
  !Text.Decimal.isDigit c && !(['x', 'u', '\n', '\r', '\u2028', '\u2029'].contains c)

/-- **What follows the opening quote of a text**, up to the closing one. -/
inductive Quoted : List Char → Prop
  | close : Quoted ['"']
  | plain {c : Char} {cs : List Char} (hc : c ∉ ['"', '\\', '\n', '\r']) (h : Quoted cs) :
      Quoted (c :: cs)
  | escape {c : Char} {cs : List Char} (hc : isEscape c) (h : Quoted cs) : Quoted ('\\' :: c :: cs)
  | short {a b : Char} {cs : List Char} (hcode : [a, b].all isHexDigit) (h : Quoted cs) :
      Quoted ('\\' :: 'x' :: a :: b :: cs)
  | long {a b c d : Char} {cs : List Char} (hcode : [a, b, c, d].all isHexDigit)
      (h : Quoted cs) : Quoted ('\\' :: 'u' :: a :: b :: c :: d :: cs)

/-- A text between quotes. -/
def IsLiteral (w : String) : Prop := ∃ cs, w.toList = '"' :: cs ∧ Quoted cs

def lbrace : String := "\x7b"

def rbrace : String := "\x7d"

/-- The signs; those that scripts do not use count where the longest one is looked for. -/
def punctuators : List String := [
  lbrace, rbrace, "(", ")", "[", "]", ".", "...", ";", ",", "<", ">", "<=", ">=", "==", "!=",
  "===", "!==", "+", "-", "*", "/", "%", "**", "++", "--", "<<", ">>", ">>>", "&", "|", "^", "!",
  "~", "&&", "||", "??", "?", "?.", ":", "=", "+=", "-=", "*=", "/=", "%=", "**=", "<<=", ">>=",
  ">>>=", "&=", "|=", "^=", "&&=", "||=", "??=", "=>"]

/-- **The words of scripts.** -/
inductive Lexeme (w : String) : Prop
  | name (h : isName w)
  | numeral (h : isNumeral w)
  | literal (h : IsLiteral w)
  | punctuator (h : w ∈ punctuators)

/-- **The text is divided into the words.**  Each is the longest one at its place; what
follows a numeral does not go on it. -/
inductive Scans : List Char → List String → Prop
  | nil : Scans [] []
  | blank {cs : List Char} {ws : List String} (h : Scans cs ws) : Scans (' ' :: cs) ws
  | word {w : String} {cs : List Char} {ws : List String} (hw : Lexeme w)
      (hlongest : ∀ v, Lexeme v → v.toList <+: w.toList ++ cs → v.toList.length ≤ w.toList.length)
      (hnumeral : isNumeral w → ∀ c ∈ cs.head?, isNamePart c = false ∧ c ≠ '.')
      (h : Scans cs ws) : Scans (w.toList ++ cs) (w :: ws)

/-! ## Phrases -/

/-- The kinds of phrases.  The level of an expression says how loosely it is put together:
0 for literals, names, groups and their parts, 1 for calls, 2 for signs in front, 3 for
products, 4 for sums, 5 for comparisons, 6 for equalities, 7 for conjunctions, 8 for
disjunctions, and 9 for choices and functions, that is for all expressions. -/
inductive Symbol where
  | expr (level : Nat)
  | arguments
  | properties
  | params
  | statement
  /-- A statement or a declaration. -/
  | item
  | body
deriving DecidableEq, Repr

/-- The operators of each level. -/
def operators : Nat → List String
  | 3 => ["*", "/"]
  | 4 => ["+", "-"]
  | 5 => ["<", ">", "<=", ">="]
  | 6 => ["===", "!=="]
  | 7 => ["&&"]
  | 8 => ["||"]
  | _ => []

/-- **The rows of words that the grammar derives.** -/
inductive Phrase : Symbol → List String → Prop
  | name {x : String} (h : isIdentifier x) : Phrase (.expr 0) [x]
  | constant {w : String} (h : w ∈ ["null", "true", "false"]) : Phrase (.expr 0) [w]
  | numeral {w : String} (h : isNumeral w) : Phrase (.expr 0) [w]
  | literal {w : String} (h : IsLiteral w) : Phrase (.expr 0) [w]
  | group {ws : List String} (h : Phrase (.expr 9) ws) : Phrase (.expr 0) ("(" :: ws ++ [")"])
  | object {ws : List String} (h : Phrase .properties ws) :
      Phrase (.expr 0) (lbrace :: ws ++ [rbrace])
  | property {x : String} {ws : List String} (hx : isName x) (h : Phrase (.expr 9) ws) :
      Phrase .properties (x :: ":" :: ws)
  | properties {x : String} {ws vs : List String} (hx : isName x) (h : Phrase (.expr 9) ws)
      (hs : Phrase .properties vs) : Phrase .properties (x :: ":" :: ws ++ "," :: vs)
  | part {n : Nat} {x : String} {ws : List String} (hn : n ≤ 1) (h : Phrase (.expr n) ws)
      (hx : isName x) : Phrase (.expr n) (ws ++ [".", x])
  | new {ws vs : List String} (h : Phrase (.expr 0) ws) (ha : Phrase .arguments vs) :
      Phrase (.expr 0) ("new" :: ws ++ vs)
  | call {ws vs : List String} (h : Phrase (.expr 1) ws) (ha : Phrase .arguments vs) :
      Phrase (.expr 1) (ws ++ vs)
  | noArgument : Phrase .arguments ["(", ")"]
  | argument {ws : List String} (h : Phrase (.expr 9) ws) : Phrase .arguments ("(" :: ws ++ [")"])
  | unary {op : String} {ws : List String} (hop : op ∈ ["-", "!"]) (h : Phrase (.expr 2) ws) :
      Phrase (.expr 2) (op :: ws)
  | binary {n : Nat} {op : String} {ws vs : List String} (hop : op ∈ operators (n + 1))
      (hl : Phrase (.expr (n + 1)) ws) (hr : Phrase (.expr n) vs) :
      Phrase (.expr (n + 1)) (ws ++ op :: vs)
  | choice {us ws vs : List String} (hc : Phrase (.expr 8) us) (hy : Phrase (.expr 9) ws)
      (hn : Phrase (.expr 9) vs) : Phrase (.expr 9) (us ++ "?" :: (ws ++ ":" :: vs))
  | noParam : Phrase .params ["(", ")"]
  | param {x : String} (hx : isIdentifier x) : Phrase .params ["(", x, ")"]
  /-- A function whose body is an expression. -/
  | arrow {ps ws : List String} (hp : Phrase .params ps) (h : Phrase (.expr 9) ws)
      (hstart : ws.head? ≠ some lbrace) : Phrase (.expr 9) (ps ++ "=>" :: ws)
  | function {ps ws : List String} (hp : Phrase .params ps) (h : Phrase .body ws) :
      Phrase (.expr 9) (ps ++ "=>" :: lbrace :: ws ++ [rbrace])
  | loosen {n : Nat} {ws : List String} (hn : n < 9) (h : Phrase (.expr n) ws) :
      Phrase (.expr (n + 1)) ws
  | expression {ws : List String} (h : Phrase (.expr 9) ws) (hstart : ws.head? ≠ some lbrace) :
      Phrase .statement (ws ++ [";"])
  | block {ws : List String} (h : Phrase .body ws) : Phrase .statement (lbrace :: ws ++ [rbrace])
  | test {ws vs : List String} (hc : Phrase (.expr 9) ws) (h : Phrase .statement vs) :
      Phrase .statement ("if" :: "(" :: ws ++ ")" :: vs)
  | throw {ws : List String} (h : Phrase (.expr 9) ws) :
      Phrase .statement ("throw" :: ws ++ [";"])
  | result {ws : List String} (h : Phrase (.expr 9) ws) :
      Phrase .statement ("return" :: ws ++ [";"])
  | declaration {x : String} {ws : List String} (hx : isIdentifier x) (h : Phrase (.expr 9) ws) :
      Phrase .item ("const" :: x :: "=" :: ws ++ [";"])
  | item {ws : List String} (h : Phrase .statement ws) : Phrase .item ws
  | empty : Phrase .body []
  | sequence {ws vs : List String} (h : Phrase .item ws) (hs : Phrase .body vs) :
      Phrase .body (ws ++ vs)

/-- **The text is one expression.** -/
def IsExpression (s : String) : Prop := ∃ ws, Scans s.toList ws ∧ Phrase (.expr 9) ws

end LetPoly.Script
