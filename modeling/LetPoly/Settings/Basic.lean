import LetPoly.Text.Decimal
import LetPoly.Text.Path
import LetPoly.Text.Quoted
import LetPoly.Yaml.Node

/-! # Settings

The settings of interactive use are read from a YAML file that maps names to values.
Unknown names are passed over, and a setting that is absent, null or empty takes its
default.
-/

namespace LetPoly

/-- When output is coloured. -/
inductive ColorMode where
  | auto
  | always
  | never
deriving DecidableEq, Repr

/-- The mode by its name. -/
def ColorMode.ofName? : String → Option ColorMode
  | "auto" => some .auto
  | "always" => some .always
  | "never" => some .never
  | _ => none

/-- The name of a mode. -/
def ColorMode.name : ColorMode → String
  | .auto => "auto"
  | .always => "always"
  | .never => "never"

structure Settings where
  /-- Shown before each new input. -/
  prompt : String := "polyval> "
  /-- Shown before each line that continues an input. -/
  continuationPrompt : String := "......> "
  /-- Where inputs are remembered. -/
  historyFile : String := ".polyval_history"
  color : ColorMode := .auto
  /-- The definitions that a session starts with. -/
  prelude : List String := []
deriving DecidableEq, Repr

/-- What is wrong with a settings file. -/
inductive SettingsError where
  /-- It is no YAML, or a value has the wrong shape. -/
  | malformed
  | badColor (text : String)
  | emptyDefinition (index : Nat)
deriving DecidableEq, Repr

def SettingsError.message : SettingsError → String
  | .malformed => "not a map of settings"
  | .badColor s => "color must be one of auto, always or never, not " ++ Text.escaped s
  | .emptyDefinition i => "prelude[" ++ Text.Decimal.natural i ++ "] is empty"

namespace Settings

/-- The name of the settings file in the home directory. -/
def fileName : String := ".polyval.yaml"

/-! ## Reading -/

/-- The value of a name, if it has one. -/
def entry? (entries : List (String × Yaml.Node)) (name : String) : Option Yaml.Node :=
  (entries.lookup name).filter (!·.isNull)

/-- A setting that is a text. -/
def textOr (entries : List (String × Yaml.Node)) (name default : String) :
    Except SettingsError String :=
  match entry? entries name with
  | none => .ok default
  | some (.scalar _ s) => .ok (if s.isEmpty then default else s)
  | some _ => .error .malformed

/-- The texts of a list; items without a value are left out. -/
def texts : List Yaml.Node → Except SettingsError (List String)
  | [] => .ok []
  | item :: items =>
    if item.isNull then texts items
    else match item with
      | .scalar _ s => do return s :: (← texts items)
      | _ => .error .malformed

/-- A setting that is a list of texts. -/
def textsOr (entries : List (String × Yaml.Node)) (name : String) :
    Except SettingsError (List String) :=
  match entry? entries name with
  | none => .ok []
  | some (.list items) => texts items
  | some _ => .error .malformed

/-- The settings of a map. -/
def ofEntries (entries : List (String × Yaml.Node)) : Except SettingsError Settings := do
  let prompt ← textOr entries "prompt" "polyval> "
  let continuationPrompt ← textOr entries "continuation_prompt" "......> "
  let historyFile ← textOr entries "history_file" ".polyval_history"
  let color ← textOr entries "color" "auto"
  let prelude ← textsOr entries "prelude"
  match ColorMode.ofName? color with
  | none => throw (.badColor color)
  | some color =>
    match prelude.findIdx? String.isEmpty with
    | some i => throw (.emptyDefinition i)
    | none => return { prompt, continuationPrompt, historyFile, color, prelude }

/-- **The settings that a text holds.** -/
def parse (s : String) : Except SettingsError Settings :=
  match Yaml.Node.parse s with
  | none => .error .malformed
  | some node =>
    if node.isNull then .ok {}
    else match node with
      | .map entries => ofEntries entries
      | _ => .error .malformed

/-! ## Use -/

/-- **Output is coloured**, given whether it goes to a terminal. -/
def useColor (s : Settings) (terminal : Bool) : Bool :=
  match s.color with
  | .auto => terminal
  | .always => true
  | .never => false

/-- **Where inputs are remembered**, for a home directory.  The path is empty if they
cannot be. -/
def historyPath (s : Settings) (home : String) : String :=
  if s.historyFile.isEmpty then ""
  else if Text.Path.isAbsolute s.historyFile then s.historyFile
  else if home.isEmpty then ""
  else Text.Path.join home s.historyFile

end Settings

end LetPoly
