import LetPoly.Token.Cursor
import LetPoly.Ty.Basic

/-! # Reading types

Quantifiers `a . T` and `tfn a -> T` reach as far as they can, arrows associate to
the right, applications to the left.
-/

namespace LetPoly.Ty

/-- The type that a name stands for: a base type or a variable. -/
def ofName (x : String) : Ty := if x ∈ baseNames then .const x else .var x

/-- A token that may start an atomic type. -/
def startsAtom : Token.Kind → Bool
  | .ident | .lparen | .lbracket => true
  | _ => false

/-- An atomic type, with the reader of the types inside it. -/
def readAtom (type : Reader Ty) : Reader Ty := do
  let t ← Reader.next
  match t.kind with
  | .ident => return ofName t.literal
  | .lparen => do
    let inner ← type
    let _ ← Reader.expect .rparen .parenthesizedType
    return inner
  | .lbracket => do
    let elem ← type
    let _ ← Reader.expect .rbracket .listType
    return .list elem
  | _ => Reader.failAt t (.unexpected .type t)

/-- Applies a type to the atomic type that follows, if one does. -/
def readArg? (type : Reader Ty) (func : Ty) : Reader (Option Ty) := do
  if startsAtom (← Reader.peek).kind then
    let arg ← readAtom type
    return some (.app func arg)
  else
    return none

/-- An atomic type applied to any number of atomic types. -/
def readApp (bound : Nat) (type : Reader Ty) : Reader Ty := do
  let func ← readAtom type
  Reader.extend (readArg? type) bound func

/-- An application, and after an arrow the type that it returns. -/
def readArrow (bound : Nat) (type : Reader Ty) : Reader Ty := do
  let arg ← readApp bound type
  if ← Reader.accept .arrow then
    let ret ← type
    return .arrow arg ret
  else
    return arg

/-- A type, with the reader of the types inside it. -/
def readWith (bound : Nat) (type : Reader Ty) : Reader Ty := do
  let t ← Reader.peek
  if t.kind = .kwTfn then
    let _ ← Reader.next
    let x ← Reader.expect .ident .quantifier
    let _ ← Reader.expect .arrow .quantified
    let body ← type
    return .poly x.literal body
  else if t.kind = .ident && (← Reader.peekSecond).kind = .dot then
    let _ ← Reader.next
    let _ ← Reader.next
    let body ← type
    return .poly t.literal body
  else
    readArrow bound type

/-- A type nested less deeply than the bound. -/
def read : Nat → Reader Ty
  | 0 => Reader.tooDeep
  | n + 1 => readWith n (read n)

/-- **The type that a source denotes.** -/
def parse (source : List Char) : Except SyntaxError Ty := Reader.readAll read source

end LetPoly.Ty
