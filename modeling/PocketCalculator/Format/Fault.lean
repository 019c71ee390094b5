/-! # Faults of the display

Why a value cannot be shown: the settings cannot be read, the format or a setting is no good, or the
value is beyond what the format can write. -/

namespace PocketCalculator

/-- Why settings cannot be read or written. -/
inductive SettingsFault where
  /-- The value in the file, or one of its items, has no items. -/
  | noItems
  /-- An item is no pair. -/
  | noPair
  /-- The first item of a pair is no key, or none that can be listed. -/
  | noKey
  /-- A single member is asked for, but the value in the file has none. -/
  | noMembers
  /-- A whole number has too many digits. -/
  | overlongNumber
  deriving DecidableEq, Repr

/-- The causes for which a value cannot be shown. -/
inductive FormatFault where
  /-- There are no settings, because they cannot be read. -/
  | noSettings (fault : SettingsFault)
  /-- No format has this name. -/
  | unknownFormat
  /-- A setting that the format needs is not there. -/
  | missingSetting (key : String)
  /-- A setting is neither a number, nor a text, nor a truth value. -/
  | settingNotNumeric (key : String)
  /-- A setting has a text that writes no whole number. -/
  | settingUnreadable (key : String)
  /-- A setting is an infinite number. -/
  | settingInfinite (key : String)
  /-- A number of significant digits that is negative or out of all bounds. -/
  | digitsOutOfRange
  /-- More digits than a fixed number may have. -/
  | tooManyDigits
  /-- A largest denominator below one. -/
  | noDenominator
  /-- An infinite value where a finite one is needed. -/
  | infiniteValue
  /-- A value that is no number where one is needed. -/
  | undefinedValue
  deriving DecidableEq, Repr

end PocketCalculator
