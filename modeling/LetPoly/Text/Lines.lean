/-! # Lines

A line ends with a line feed, before which one carriage return is dropped.  What
stands after the last line feed is a line if it is not empty.
-/

namespace LetPoly.Text

/-- The texts between line feeds. -/
def splitLines : List Char → List (List Char)
  | [] => []
  | '\n' :: cs => [] :: splitLines cs
  | c :: cs =>
    match splitLines cs with
    | [] => [[c]]
    | l :: ls => (c :: l) :: ls

/-- The text without one carriage return at its end. -/
def dropReturn (cs : List Char) : List Char :=
  if cs.getLast? = some '\r' then cs.dropLast else cs

/-- The bytes that a line and its end have at most. -/
def lineLimit : Nat := 65536

/-- **The lines of a text** up to the first that passes the limit, and whether one does. -/
def boundedLines (s : String) : List String × Bool :=
  let (short, long) := ((splitLines s.toList).map String.ofList).span
    fun l => l.utf8ByteSize < lineLimit
  (short.map fun l => String.ofList (dropReturn l.toList), !long.isEmpty)

end LetPoly.Text
