import PocketCalculator.Json
import PocketCalculator.Json.Printer

/-! # The journal

Records of what happens, each with a source, a level and a message.  The journal takes the records
of its own sources from a level on, writes them on the screen and, if asked to, into a file.  Each
opening sets the level anew and starts the file afresh; the screen keeps what it shows. -/

namespace PocketCalculator

/-! ### Levels -/

/-- The names of levels. -/
def levelNames : List (String × Int) :=
  [("CRITICAL", 50), ("FATAL", 50), ("ERROR", 40), ("WARNING", 30), ("WARN", 30), ("INFO", 20),
   ("DEBUG", 10), ("NOTSET", 0)]

/-- The level of what is told in passing, and of a name that is not known. -/
def infoLevel : Int := 20

/-- The level in force where none is set. -/
def inheritedLevel : Int := 30

/-- The upper case of a letter as far as names of levels need it: besides the letters of the first
block, the dotless i and the long s have an upper case there. -/
def upperLetter (c : Char) : Char :=
  if c = 'ı' then 'I' else if c = 'ſ' then 'S' else c.toUpper

/-- The level that a setting asks for: a whole number, a truth value as one or zero, or a name in
any case.  Anything else asks for the level of what is told in passing. -/
def resolveLevel : Json → Int
  | .int n => n
  | .bool b => if b then 1 else 0
  | .text s => (levelNames.lookup (String.ofList (s.toList.map upperLetter))).getD infoLevel
  | _ => infoLevel

/-- How a level is written: by its first name, or by its number. -/
def levelText (level : Int) : String :=
  match levelNames.find? (·.2 = level) with
  | some (name, _) => name
  | none => "Level " ++ String.ofList (Json.intText level)

/-! ### Records -/

/-- Something that happened. -/
structure Record where
  source : String
  level : Int
  message : String
  deriving DecidableEq, Repr

/-- The line of a record. -/
def Record.line (r : Record) : String :=
  r.source ++ " - " ++ levelText r.level ++ " - " ++ r.message

/-- The name of the journal, which is also the first part of the names of its sources. -/
def journalName : String := "calcpro"

/-- Whether a record comes from the journal or one of its sources. -/
def Record.isOwn (r : Record) : Bool :=
  r.source == journalName || Text.startsWith r.source.toList (journalName.toList ++ ['.'])

/-! ### The journal -/

/-- The level, the levels of the writers, and the lines written. -/
structure Journal where
  level : Int
  writers : List Int
  screen : List String
  file : Option (List String)
  deriving DecidableEq, Repr

namespace Journal

/-- A journal that was never opened. -/
def closed : Journal :=
  ⟨0, [], [], none⟩

/-- The level from which records are taken. -/
def threshold (j : Journal) : Int :=
  if j.level = 0 then inheritedLevel else j.level

/-- Whether a record is written.  Levels that are not positive are switched off altogether. -/
def takes (j : Journal) (r : Record) : Bool :=
  r.isOwn && 0 < r.level && j.threshold ≤ r.level && !j.writers.isEmpty &&
    j.writers.all (· ≤ r.level)

/-- The journal with a record written, if it is taken. -/
def write (j : Journal) (r : Record) : Journal :=
  if j.takes r then
    { j with screen := j.screen ++ [r.line], file := j.file.map (· ++ [r.line]) }
  else j

/-- The journal opened at a level, with a file or without one. -/
def reopen (j : Journal) (withFile : Bool) (setting : Json) : Journal :=
  let level := resolveLevel setting
  let opened : Journal :=
    { level
      writers := if withFile then [level, level] else [level]
      screen := j.screen
      file := if withFile then some [] else none }
  opened.write ⟨journalName, infoLevel, "Logging initialized."⟩

/-- The journal after openings at the given levels and the given records. -/
def run (withFile : Bool) (levels : List Json) (records : List Record) : Journal :=
  records.foldl write (levels.foldl (reopen · withFile) closed)

end Journal
end PocketCalculator
