import LetPoly.Text.Decimal
import LetPoly.Text.Quoted

/-! # Tokens

A token has a kind, a literal and the position of its first character.  The
literal is the token's own text, except for a string, where it is the text that
the string denotes.
-/

namespace LetPoly

/-- A place in a source: line and column, both counted from one. -/
structure Pos where
  line : Nat
  column : Nat
deriving DecidableEq, Repr, Inhabited

namespace Pos

/-- The first place of a source. -/
def start : Pos := ⟨1, 1⟩

/-- The place after a character. -/
def advance (p : Pos) (c : Char) : Pos :=
  if c = '\n' then ⟨p.line + 1, 1⟩ else ⟨p.line, p.column + 1⟩

/-- The place after a row of characters. -/
def advanceAll (p : Pos) (cs : List Char) : Pos := cs.foldl advance p

end Pos

namespace Token

/-- The lexical classes. -/
inductive Kind where
  | eof | illegal
  | ident | int | string | underscore
  | kwTrue | kwFalse | kwIf | kwThen | kwElse | kwVal | kwVar | kwMatch | kwWith | kwCase | kwTfn
  | lparen | rparen | lbrace | rbrace | lbracket | rbracket | semicolon | colon | dot
  | plus | minus | star | slash | lt | le | gt | ge | eq | ne | and | or
  | cons | assign | fatArrow | arrow
deriving DecidableEq, Repr, Inhabited

namespace Kind

/-- The kinds in the order in which they are numbered. -/
def all : List Kind :=
  [.eof, .illegal, .ident, .int, .string, .underscore, .kwTrue, .kwFalse, .kwIf, .kwThen, .kwElse,
    .kwVal, .kwVar, .kwMatch, .kwWith, .kwCase, .kwTfn, .lparen, .rparen, .lbrace, .rbrace,
    .lbracket, .rbracket, .semicolon, .colon, .dot, .plus, .minus, .star, .slash, .lt, .le, .gt,
    .ge, .eq, .ne, .and, .or, .cons, .assign, .fatArrow, .arrow]

/-- The name of a kind; for keywords and symbols it is their spelling. -/
def name : Kind → String
  | .eof => "end of input"
  | .illegal => "illegal character"
  | .ident => "identifier"
  | .int => "integer"
  | .string => "string"
  | .underscore => "_"
  | .kwTrue => "True"
  | .kwFalse => "False"
  | .kwIf => "if"
  | .kwThen => "then"
  | .kwElse => "else"
  | .kwVal => "val"
  | .kwVar => "var"
  | .kwMatch => "match"
  | .kwWith => "with"
  | .kwCase => "case"
  | .kwTfn => "tfn"
  | .lparen => "("
  | .rparen => ")"
  | .lbrace => "\x7b"
  | .rbrace => "\x7d"
  | .lbracket => "["
  | .rbracket => "]"
  | .semicolon => ";"
  | .colon => ":"
  | .dot => "."
  | .plus => "+"
  | .minus => "-"
  | .star => "*"
  | .slash => "/"
  | .lt => "<"
  | .le => "<="
  | .gt => ">"
  | .ge => ">="
  | .eq => "=="
  | .ne => "!="
  | .and => "&&"
  | .or => "||"
  | .cons => "::"
  | .assign => "="
  | .fatArrow => "=>"
  | .arrow => "->"

/-- The name of the kind with a number, counted from zero; numbers of no kind are
named by themselves. -/
def nameOfNumber (i : Int) : String :=
  match if i < 0 then none else all[i.toNat]? with
  | some k => k.name
  | none => "token(" ++ Text.Decimal.integer i ++ ")"

/-- The kinds spelled like an identifier. -/
def keywords : List Kind :=
  [.kwTrue, .kwFalse, .kwIf, .kwThen, .kwElse, .kwVal, .kwVar, .kwMatch, .kwWith, .kwCase, .kwTfn,
    .underscore]

/-- The kind of a word. -/
def ofWord (s : String) : Kind := (keywords.find? (·.name == s)).getD .ident

/-- The kinds spelled with signs.  A spelling that starts with another one stands
before it. -/
def symbols : List Kind :=
  [.eq, .fatArrow, .arrow, .le, .ge, .ne, .and, .or, .cons,
    .assign, .minus, .lt, .gt, .colon, .plus, .star, .slash, .lparen, .rparen, .lbrace, .rbrace,
    .lbracket, .rbracket, .semicolon, .dot]

end Kind

end Token

structure Token where
  kind : Token.Kind
  literal : String
  pos : Pos
deriving DecidableEq, Repr, Inhabited

/-- How a message names a token. -/
def Token.describe (t : Token) : String :=
  match t.kind with
  | .eof => "end of input"
  | .ident => "identifier " ++ t.literal
  | .int => "integer " ++ t.literal
  | .string => "string " ++ Text.escaped t.literal
  | .illegal => "illegal character " ++ Text.escaped t.literal
  | k => "'" ++ k.name ++ "'"

end LetPoly
