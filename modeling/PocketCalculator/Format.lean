import PocketCalculator.Format.Fixed
import PocketCalculator.Format.Sexagesimal
import PocketCalculator.Format.Fraction
import PocketCalculator.Json
import PocketCalculator.Number.Reading

/-! # Display formats

The five formats in which a result can be shown, and the settings that each of them looks up.  None
of them changes the value. -/

namespace PocketCalculator

/-! ### Formats -/

/-- The display formats. -/
inductive DisplayFormat where
  | standard
  | fixed
  | engineering
  | sexagesimal
  | fraction
  deriving DecidableEq, Repr

namespace DisplayFormat

/-- The name of a format. -/
def name : DisplayFormat → String
  | standard => "standard"
  | fixed => "fixed"
  | engineering => "engineering"
  | sexagesimal => "sexagesimal"
  | fraction => "fraction"

/-- Every format, in the order in which the format key goes through them. -/
def all : List DisplayFormat :=
  [standard, fixed, engineering, sexagesimal, fraction]

/-- The format of a name. -/
def ofName? (s : String) : Option DisplayFormat :=
  all.find? (·.name = s)

/-- The format that the format key switches to. -/
def next : DisplayFormat → DisplayFormat
  | standard => fixed
  | fixed => engineering
  | engineering => sexagesimal
  | sexagesimal => fraction
  | fraction => standard

end DisplayFormat

/-! ### Settings -/

/-- The settings: named values in order. -/
abbrev Settings := Json.Members

namespace Settings

/-- The value of a setting that must be there. -/
def value (s : Settings) (key : String) : Except FormatFault Json :=
  match s.lookup key with
  | some v => .ok v
  | none => .error (.missingSetting key)

/-- A setting as a whole number: truth values count as one and zero, real numbers lose what is
behind the point, and texts are read. -/
def int (s : Settings) (key : String) : Except FormatFault Int := do
  match ← s.value key with
  | .int n => return n
  | .bool b => return if b then 1 else 0
  | .real x =>
    match Dyadic.ofFloat? x with
    | some d => return d.truncate
    | none => .error (if x.isNaN then .settingUnreadable key else .settingInfinite key)
  | .text t =>
    match Reading.int? t.toList with
    | some n => return n
    | none => .error (.settingUnreadable key)
  | .null | .list _ | .object _ => .error (.settingNotNumeric key)

/-- Whether a value counts as true: zero and whatever is empty do not. -/
def isTrue : Json → Bool
  | .null => false
  | .bool b => b
  | .int n => n != 0
  | .real x => x != 0
  | .text t => t != ""
  | .list items => !items.isEmpty
  | .object members => !members.isEmpty

/-- A setting as a truth value. -/
def flag (s : Settings) (key : String) : Except FormatFault Bool :=
  (s.value key).map isTrue

end Settings

/-! ### Results -/

/-- The text that the special values have in every format. -/
def specialText? (x : Float) : Option Text :=
  if x.isNaN then some ['N', 'a', 'N']
  else if x.isInf then some (Decimal.signText (x < 0) ++ ['∞'])
  else none

/-- A finite value in a format. -/
def DisplayFormat.renderFinite (format : DisplayFormat) (s : Settings) (x : Float) :
    Except FormatFault Text := do
  match format with
  | standard => formatStandard (← s.int "significant_digits") x
  | fixed => formatFixed (← s.int "decimal_places") x
  | engineering => formatEngineering (← s.int "significant_digits") x
  | sexagesimal => formatSexagesimal x
  | fraction =>
    formatFraction (← s.int "fraction_max_denominator") (← s.flag "mixed_fractions") x

/-- The settings, which must have been read. -/
def Settings.orFault (s : Except SettingsFault Settings) : Except FormatFault Settings :=
  s.mapError FormatFault.noSettings

/-- A value in a format.  The settings do not matter for a special value. -/
def DisplayFormat.render (format : DisplayFormat) (s : Except SettingsFault Settings) (x : Float) :
    Except FormatFault Text :=
  match specialText? x with
  | some t => .ok t
  | none => do format.renderFinite (← Settings.orFault s) x

/-- The format that a name must name. -/
def DisplayFormat.named (name : String) : Except FormatFault DisplayFormat :=
  match ofName? name with
  | some format => .ok format
  | none => .error .unknownFormat

/-- A value in the format of a name.  Neither the settings nor the name matter for a special value,
and the settings are read before the name is looked at. -/
def renderNamed (name : String) (s : Except SettingsFault Settings) (x : Float) :
    Except FormatFault Text :=
  match specialText? x with
  | some t => .ok t
  | none => do
    let s ← Settings.orFault s
    (← DisplayFormat.named name).renderFinite s x

end PocketCalculator
