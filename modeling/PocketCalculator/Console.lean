import PocketCalculator.Session

/-! # The console

A session driven by lines of text.  A line is a command or a list of key names; the keys of a line
are pressed in turn, up to a name that no key has.  The screen shown is the one after the last key
that was pressed, so a name without a key leaves it as it was.

`Console.answer` gives the answer to one line, `Console.run` the whole conversation. -/

namespace PocketCalculator

/-! ### Surroundings -/

/-- What a console needs from outside. -/
structure Surroundings where
  profile : Profile
  descriptions : FileText
  clipboard : Bool

/-- The listing of settings: a line for each, with its name, its value and its description. -/
def settingsListing (rows : List (Text × Json)) (descriptions : FileText) :
    Except SettingsFault Text := do
  let described : Settings :=
    match ← loadDescription descriptions "all" with
    | .object members => members
    | _ => []
  return ['\n'].intercalate <| rows.map fun (key, v) =>
    Text.padRight 26 key ++ Text.padRight 12 v.shown ++
      ((described.lookup (String.ofList key)).map Json.shown).getD []

/-! ### Conversation -/

/-- What a console does towards the outside. -/
inductive Output where
  /-- A text on the screen. -/
  | print (t : Text)
  /-- A text on the clipboard. -/
  | copy (t : Text)
  deriving DecidableEq, Repr

namespace Output

/-- A text and the end of its line. -/
def printLine (t : Text) : Output :=
  print (t ++ ['\n'])

/-- What is seen on the screen. -/
def printed (outputs : List Output) : Text :=
  outputs.flatMap fun
    | print t => t
    | copy _ => []

/-- The texts that were copied, in order. -/
def copied (outputs : List Output) : List Text :=
  outputs.filterMap fun
    | print _ => none
    | copy t => some t

end Output

/-- A session, and the screen after the last key that was pressed. -/
structure Console where
  session : Session
  screen : Screen

namespace Console

/-- What stands in front of each line of input. -/
def prompt : Text := ['>', ' ']

/-- What is said about a name that no key has. -/
def unknownKeyText (name : Text) : Text :=
  let fault := Fault.unknownKey name
  String.toList <|
    (categoryOf fault.code).getD "Error" ++ " " ++ fault.code ++ ": " ++ fault.message

/-- A console for a session. -/
def ofSession (s : Session) : Console :=
  ⟨s, s.screen⟩

/-- The keys of a line pressed in turn, with what is said about the first name that no key has.  A
result that cannot be shown ends the conversation. -/
def pressAll (p : Profile) (c : Console) :
    List Text → Except FormatFault (Console × List Output)
  | [] => .ok (c, [])
  | name :: names =>
    match c.session.pressNamed p name with
    | (s, none) => pressAll p ⟨s, s.screen⟩ names
    | (s, some (.unknownKey name)) =>
      .ok (⟨s, c.screen⟩, [.printLine (unknownKeyText name)])
    | (_, some (.display fault)) => .error fault

/-- The last result, or the expression when there is none. -/
def copyText (s : Screen) : Text :=
  if s.result = [] then s.text else s.result

/-- What copying does: the text goes to the clipboard, if there is one. -/
def copyOutputs (clipboard : Bool) (t : Text) : List Output :=
  if clipboard then [.copy t, .printLine ("Copied: ".toList ++ t)]
  else [.printLine "Clipboard not available.".toList]

/-- The lines that are commands. -/
inductive Command where
  | quit
  | copy
  | settings
  deriving DecidableEq, Repr

/-- The command of a line without blanks around it. -/
def Command.ofLine? (line : Text) : Option Command :=
  if line = ":quit".toList then some quit
  else if line = ":copy".toList then some copy
  else if line = ":settings".toList then some settings
  else none

/-- The answer to a line: the console after it, unless the conversation has ended, and what it
does. -/
def answer (w : Surroundings) (c : Console) (line : Text) :
    Except FormatFault (Option Console × List Output) :=
  match Command.ofLine? line.strip with
  | some .quit => .ok (none, [])
  | some .copy => .ok (some c, copyOutputs w.clipboard (copyText c.screen))
  | some .settings => do
    let settings ← Settings.orFault w.profile.settings
    let listing ← (settingsListing settings.rows w.descriptions).mapError .noSettings
    return (some c, [.printLine listing])
  | none => do
    let (c, said) ← c.pressAll w.profile line.words
    return (some c, said ++ [.printLine c.screen.render])

/-- The answers to all lines, a prompt in front of each and one more at the end of the input. -/
def converse (w : Surroundings) (c : Console) :
    List Text → Except FormatFault (Console × List Output)
  | [] => .ok (c, [.print prompt])
  | line :: lines => do
    match ← c.answer w line with
    | (none, said) => return (c, .print prompt :: said)
    | (some c', said) =>
      let (last, more) ← converse w c' lines
      return (last, .print prompt :: said ++ more)

/-- What is done before the first line. -/
def greeting (c : Console) : List Output :=
  [.printLine c.screen.render]

/-- The whole conversation about an input. -/
def run (w : Surroundings) (s : Session) (input : Text) :
    Except FormatFault (Console × List Output) := do
  let c := ofSession s
  let (last, said) ← c.converse w input.lines
  return (last, c.greeting ++ said)

/-- The whole program: the level of the journal is looked up in the settings file before a new
session starts. -/
def launch (file descriptions : FileText) (clipboard : Bool) (input : Text) :
    Except FormatFault (Console × List Output) := do
  let _ ← (Settings.loadOne file "log_level").mapError FormatFault.noSettings
  let profile ← (Profile.ofFile file none).mapError .noSettings
  run ⟨profile, descriptions, clipboard⟩ (.start profile) input

end Console
end PocketCalculator
