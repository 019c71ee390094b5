import PocketCalculator.Settings.Pairs
import PocketCalculator.Json.Reader

/-! # Settings and descriptions

The settings are the members of the settings file laid over the defaults.  A file that is missing or
that is no JSON counts as empty, but one with a whole number that is too long cannot be read at all.
A single setting falls back first to its default, then to zero.

The descriptions of the settings come from a file of their own. -/

namespace PocketCalculator

/-- What a file holds, `none` when there is no such file. -/
abbrev FileText := Option Text

/-- The value in a file, `none` when there is no such file or it holds no JSON. -/
def FileText.content (file : FileText) : Except SettingsFault (Option Json) :=
  match file with
  | none => .ok none
  | some t =>
    match Json.read t with
    | .ok v => .ok (some v)
    | .error .malformed => .ok none
    | .error .overlongNumber => .error .overlongNumber

/-! ### Settings -/

namespace Settings

/-- The settings without a file. -/
def defaults : Settings :=
  [("display_format", .text "standard"), ("decimal_places", .int 4),
   ("significant_digits", .int 8), ("fraction_max_denominator", .int 100000),
   ("mixed_fractions", .bool true), ("log_level", .text "WARNING")]

/-- All settings: the defaults, with the content of the file set in them. -/
def loadAll (file : FileText) : Except SettingsFault Settings := do
  match ← file.content with
  | none => return defaults
  | some v => withContent defaults v

/-- All settings as the rows of a listing. -/
def loadRows (file : FileText) : Except SettingsFault (List (Text × Json)) := do
  match ← file.content with
  | none => return rows defaults
  | some v => rowsWithContent defaults v

/-- The members of the object in a settings file. -/
def ofFile (file : FileText) : Except SettingsFault Settings := do
  match ← file.content with
  | none => return []
  | some (.object members) => return members
  | some _ => throw .noMembers

/-- One setting. -/
def loadOne (file : FileText) (key : String) : Except SettingsFault Json := do
  return ((← ofFile file).lookup key <|> defaults.lookup key).getD (.int 0)

/-- One setting, or all of them as an object under the key `all`. -/
def load (file : FileText) (key : String) : Except SettingsFault Json :=
  if key = "all" then (loadAll file).map .object else loadOne file key

/-- The format that a setting names, the standard one when it names none. -/
def formatOf : Json → DisplayFormat
  | .text s => (DisplayFormat.ofName? s).getD .standard
  | _ => .standard

/-- The format that is set after a reset.  A file with a number that is too long names none. -/
def defaultFormat (file : FileText) : Except SettingsFault DisplayFormat :=
  match loadOne file "display_format" with
  | .ok v => .ok (formatOf v)
  | .error .overlongNumber => .ok .standard
  | .error fault => .error fault

/-- What is answered when settings are saved, and what is written: no settings are answered, and
nothing is written, when the file cannot be written. -/
def save (writable : Bool) (settings : Json) : Except SettingsFault (Json × FileText) :=
  if !writable then .ok (.object [], none)
  else if settings.isWritable then .ok (settings, some settings.fileText)
  else .error .overlongNumber

end Settings

/-! ### Descriptions -/

/-- The descriptions of the settings, as they are delivered. -/
def descriptionDefaults : Settings :=
  [("display_format", .text
      "Display format after reset (standard, fixed, engineering, sexagesimal, fraction)"),
   ("decimal_places", .text "Decimal places for the fixed format"),
   ("significant_digits", .text "Significant digits for the standard format"),
   ("fraction_max_denominator", .text "Largest denominator used for fraction results"),
   ("mixed_fractions", .text "Show fractions larger than one as mixed numbers"),
   ("log_level", .text "Logging level of the console")]

/-- The settings file as it is delivered. -/
def deliveredSettings : FileText :=
  some (Json.object Settings.defaults).fileText

/-- The description file as it is delivered. -/
def deliveredDescriptions : FileText :=
  some (Json.object descriptionDefaults).fileText

/-- The value under a key of a description file, the whole under `all`, zero for a missing key, and
an empty object without a readable file. -/
def loadDescription (file : FileText) (key : String) : Except SettingsFault Json := do
  match ← file.content with
  | none => return .object []
  | some v =>
    if key = "all" then return v
    else
      match v with
      | .object members => return (members.lookup key).getD (.int 0)
      | _ => throw .noMembers

end PocketCalculator
