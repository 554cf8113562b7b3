/-! # Faults of files

Why a file cannot be read, and how the system words it.
-/

namespace LetPoly

inductive FileFault where
  | absent
  | directory
  | notDirectory
  | denied
  | other (text : String)
deriving DecidableEq, Repr

/-- The message about a path. -/
def FileFault.message (path : String) : FileFault → String
  | .absent => "open " ++ path ++ ": no such file or directory"
  | .directory => "read " ++ path ++ ": is a directory"
  | .notDirectory => "open " ++ path ++ ": not a directory"
  | .denied => "open " ++ path ++ ": permission denied"
  | .other text => "read " ++ path ++ ": " ++ text

end LetPoly
