import LetPoly.Failure
import LetPoly.Settings.Basic

/-! # Settings files

Settings are looked up in a file of the home directory unless another one is named.
A file that does not exist holds no settings, which is no failure.
-/

namespace LetPoly.Settings

/-- The settings of a text that comes from a path. -/
def parseFrom (path text : String) : Except Failure Settings :=
  (parse text).mapError fun e => .within (.settings path) (.settings e)

/-- **The settings in a file.**  The empty path names none. -/
def load (file : String → Except FileFault String) (path : String) : Except Failure Settings :=
  if path.isEmpty then .ok {}
  else match file path with
    | .ok text => parseFrom path text
    | .error .absent => .ok {}
    | .error fault => .error (.within (.readingSettings path) (.unreadable path fault))

/-- The path of the settings file in a home directory, empty if there is none. -/
def defaultPath (home : String) : String :=
  if home.isEmpty then "" else Text.Path.join home fileName

end LetPoly.Settings
