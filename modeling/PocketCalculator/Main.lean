import PocketCalculator.Console
import PocketCalculator.Journal
import PocketCalculator.Installation

/-! # The command line

Looks for the files of the installation, opens the journal and runs the console on the standard
input.  Everything that is decided is decided by the modules this one imports. -/

namespace PocketCalculator.Terminal

/-- The text of a file that lies beside the program, if it can be read. -/
def readFile (name : String) : IO FileText := do
  try
    return some (← IO.FS.readFile name).toList
  catch _ => return none

/-- Carries out what the console does.  There is no clipboard here, so nothing is copied. -/
def perform (outputs : List Output) : IO Unit := do
  let out ← IO.getStdout
  out.putStr (String.ofList (Output.printed outputs))
  out.flush

/-- Answers the lines of the input one by one. -/
partial def converse (w : Surroundings) (c : Console) : IO UInt32 := do
  perform [.print Console.prompt]
  let line ← (← IO.getStdin).getLine
  if line.isEmpty then return 0
  match c.answer w line.toList with
  | .error _ =>
    IO.eprintln "The result cannot be shown."
    return 1
  | .ok (next, said) =>
    perform said
    match next with
    | some c => converse w c
    | none => return 0

/-- Opens the journal at a level and prints what it says. -/
def openJournal (level : Json) : IO Unit := do
  for line in (Journal.closed.reopen false level).screen do
    IO.println line

/-- What is needed from the settings file: the level of the journal and the profile. -/
def prepare (settings : FileText) : Except SettingsFault (Json × Profile) := do
  return (← Settings.loadOne settings "log_level", ← Profile.ofFile settings none)

/-- Runs the calculator with the files of the installation. -/
def start (settings descriptions : FileText) : IO UInt32 := do
  match prepare settings with
  | .error _ =>
    IO.eprintln "The settings cannot be read."
    return 1
  | .ok (level, profile) =>
    openJournal level
    let c := Console.ofSession (.start profile)
    perform c.greeting
    converse ⟨profile, descriptions, false⟩ c

/-- Checks the installation and runs the calculator. -/
def run : IO UInt32 := do
  let present ← Installation.requiredFiles.filterM fun name => return (← readFile name).isSome
  match Installation.check present with
  | (said, some code) =>
    IO.print said
    return code.toUInt32
  | (_, none) => start (← readFile "config.json") (← readFile "ui_strings.json")

end PocketCalculator.Terminal

/-- The program. -/
def main : IO UInt32 :=
  PocketCalculator.Terminal.run
