/-! # Paths

A path is a text of names divided by slashes.  Cleaning a path gives the shortest
text for it by its names alone: empty names and single dots are dropped, and a double
dot takes away the name before it.
-/

namespace LetPoly.Text.Path

/-- A path that starts at the root. -/
def isAbsolute (path : String) : Bool := path.toList.head? == some '/'

/-- The names of a path, empty ones included. -/
def names : List Char → List (List Char)
  | [] => [[]]
  | '/' :: cs => [] :: names cs
  | c :: cs =>
    match names cs with
    | [] => [[c]]
    | n :: ns => (c :: n) :: ns

/-- Adds a name to the names of a clean path, which come last first. -/
def enter (rooted : Bool) (before : List (List Char)) (name : List Char) : List (List Char) :=
  if name = [] ∨ name = ['.'] then before
  else if name = ['.', '.'] then
    match before with
    | [] => if rooted then [] else [name]
    | last :: rest => if last = ['.', '.'] then name :: before else rest
  else name :: before

/-- **The clean form of a path.** -/
def clean (path : String) : String :=
  let rooted := isAbsolute path
  let kept := ((names path.toList).foldl (enter rooted) []).reverse.map String.ofList
  let text := "/".intercalate kept
  if rooted then "/" ++ text else if text.isEmpty then "." else text

/-- **A path below a directory**, cleaned.  Empty paths are left out. -/
def join (directory path : String) : String :=
  if directory.isEmpty then (if path.isEmpty then "" else clean path)
  else if path.isEmpty then clean directory
  else clean (directory ++ "/" ++ path)

end LetPoly.Text.Path
