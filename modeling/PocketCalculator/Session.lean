import PocketCalculator.Session.Key
import PocketCalculator.Evaluation
import PocketCalculator.Settings
import PocketCalculator.Registers
import PocketCalculator.Screen

/-! # Sessions

A calculator in use: the expression, the registers, SHIFT, the display format and the last result.
A key press gives the session after it, and the fault that stopped it, if any: what the press has
changed before the fault stays changed.

An expression that cannot be evaluated is no fault.  An incomplete one is refused without a trace,
and any other failure is shown as the last result. -/

namespace PocketCalculator

/-! ### State -/

/-- What a session is given from outside: the format after a reset, and the settings in force unless
they cannot be read. -/
structure Profile where
  defaultFormat : DisplayFormat
  settings : Except SettingsFault Settings

/-- The profile of a settings file; `settings` take the place of those in the file. -/
def Profile.ofFile (file : FileText) (settings : Option Settings) :
    Except SettingsFault Profile := do
  return ⟨← Settings.defaultFormat file, (settings.map .ok).getD (Settings.loadAll file)⟩

/-- A calculator in use. -/
structure Session where
  buffer : Buffer
  registers : Registers
  shift : Bool
  format : DisplayFormat
  lastValue : Option Float
  result : Text
  valid : Bool
  deriving DecidableEq

/-- What is shown for an expression that has no value. -/
def errorText : Text := "Error".toList

/-- Why a key press was stopped. -/
inductive PressFault where
  | unknownKey (name : Text)
  | display (fault : FormatFault)
  deriving DecidableEq

namespace Session

/-- A new session. -/
def start (p : Profile) : Session :=
  { buffer := .cleared
    registers := .empty
    shift := false
    format := p.defaultFormat
    lastValue := none
    result := []
    valid := false }

/-- The session after a reset: only the registers are kept. -/
def reset (p : Profile) (s : Session) : Session :=
  { start p with registers := s.registers }

/-- The picture of a session. -/
def screen (s : Session) : Screen :=
  { text := s.buffer.text
    cursor := s.buffer.cursor
    fractionActive := s.buffer.fraction.active
    focus := s.buffer.fraction.focus
    shift := s.shift
    result := s.result
    valid := s.valid
    format := s.format.name.toList
    memoryInUse := s.registers.inUse }

/-! ### Evaluation -/

/-- The expression has a value: it is kept and shown, and no fraction is being edited any more.
When it cannot be shown, it is kept all the same. -/
def succeed (p : Profile) (s : Session) (x : Float) : Session × Except FormatFault (Option Float) :=
  let s := { s with registers := s.registers.store x, lastValue := some x }
  match s.format.render p.settings x with
  | .ok t =>
    ({ s with result := t, valid := true, buffer := s.buffer.withFraction .idle }, .ok (some x))
  | .error fault => (s, .error fault)

/-- The expression has no value. -/
def fail (s : Session) : Session :=
  { s with lastValue := none, result := errorText, valid := false }

/-- Evaluates the expression; answers its value, or nothing when it has none. -/
def evaluate (p : Profile) (s : Session) : Session × Except FormatFault (Option Float) :=
  match PocketCalculator.evaluate s.registers.ans s.buffer.text with
  | .ok x => s.succeed p x
  | .error failure => (if failure.fault.isRefusal then s else s.fail, .ok none)

/-! ### Keys -/

/-- A session with no fault. -/
def done (s : Session) : Session × Option FormatFault :=
  (s, none)

/-- Evaluates, and changes the registers by the value if there is one. -/
def evaluateThen (p : Profile) (s : Session) (change : Registers → Float → Registers) :
    Session × Option FormatFault :=
  match s.evaluate p with
  | (s, .ok (some x)) => done { s with registers := change s.registers x }
  | (s, .ok none) => done s
  | (s, .error fault) => (s, some fault)

/-- Switches to the next format and shows the last result in it, if there is a valid one. -/
def cycleFormat (p : Profile) (s : Session) : Session × Option FormatFault :=
  let s := { s with format := s.format.next }
  match s.valid, s.lastValue with
  | true, some x =>
    match s.format.render p.settings x with
    | .ok t => done { s with result := t }
    | .error fault => (s, some fault)
  | _, _ => done s

/-- Types a text. -/
def typeText (s : Session) (t : Text) : Session × Option FormatFault :=
  done { s with buffer := s.buffer.insert t }

/-- One key press.  Every key but SHIFT itself takes SHIFT back. -/
def press (p : Profile) (s : Session) (k : Key) : Session × Option FormatFault :=
  let shift := s.shift
  let s := { s with shift := false }
  match k.insertion? shift with
  | some t => s.typeText t
  | none =>
    match k with
    | .shift => done { s with shift := !shift }
    | .move d => done { s with buffer := s.buffer.move d }
    | .delete => done { s with buffer := s.buffer.delete }
    | .sign => done { s with buffer := s.buffer.toggleSign }
    | .allClear => done (s.reset p)
    | .equals => s.evaluateThen p fun r _ => r
    | .memoryAdd => s.evaluateThen p .add
    | .memorySubtract => s.evaluateThen p .subtract
    | .memoryRecall => s.typeText (plainText s.registers.memory)
    | .memoryClear => done { s with registers := s.registers.clearMemory }
    | .format => s.cycleFormat p
    | _ => done s

/-- One press of the key of a name.  A name that no key has takes SHIFT back and nothing else. -/
def pressNamed (p : Profile) (s : Session) (name : Text) : Session × Option PressFault :=
  match Key.ofName? name with
  | some k => ((s.press p k).1, (s.press p k).2.map .display)
  | none => ({ s with shift := false }, some (.unknownKey name))

end Session
end PocketCalculator
