import LetPoly.Pat.Basic
import LetPoly.Token.Cursor

/-! # Reading patterns

A list pattern `p :: q` associates to the right; everything else is atomic.
-/

namespace LetPoly.Pat

/-- An atomic pattern, with the reader of the patterns inside it. -/
def readAtomWith (pat : Reader Pat) : Reader Pat := do
  let t ← Reader.next
  match t.kind with
  | .int => return .number (← Reader.numeral t)
  | .string => return .string t.literal
  | .kwTrue => return .boolean true
  | .kwFalse => return .boolean false
  | .underscore => return .wildcard
  | .ident => return .ident t.literal
  | .lbracket => do
    let _ ← Reader.expect .rbracket .emptyListPattern
    return .nil
  | .lparen => do
    if ← Reader.accept .rparen then
      return .unit
    else
      let inner ← pat
      let _ ← Reader.expect .rparen .parenthesizedPattern
      return inner
  | _ => Reader.failAt t (.unexpected .pattern t)

/-- A pattern, with the reader of the patterns inside it. -/
def readWith (pat : Reader Pat) : Reader Pat := do
  let head ← readAtomWith pat
  if ← Reader.accept .cons then
    let tail ← pat
    return .cons head tail
  else
    return head

/-- A pattern nested less deeply than the bound. -/
def read : Nat → Reader Pat
  | 0 => Reader.tooDeep
  | n + 1 => readWith (read n)

/-- An atomic pattern nested less deeply than the bound. -/
def readAtom (bound : Nat) : Reader Pat := readAtomWith (read bound)

/-- **The pattern that a source denotes.** -/
def parse (source : List Char) : Except SyntaxError Pat := Reader.readAll read source

end LetPoly.Pat
