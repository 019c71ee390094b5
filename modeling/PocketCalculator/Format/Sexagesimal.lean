import PocketCalculator.Format.Engineering
import PocketCalculator.Number.Places

/-! # The sexagesimal format

Degrees, minutes and seconds.  The size of the value is brought to seconds and rounded to two
places; degrees and minutes are then taken off by division rounded down.  When the seconds leave the
range of doubles, the standard format takes over. -/

namespace PocketCalculator

/-- How many significant digits are shown when a value has no sexagesimal form. -/
def fallbackDigits : Int := 8

/-- A double that a whole number is taken off. -/
def minusWhole (x : Float) (n : Int) : Except FormatFault Float :=
  let y := nearestToInt n
  if y.isInf then .error .infiniteValue else .ok (x - y)

/-- The digits before the point of a double, and zero for what is not finite. -/
def truncateFloat (x : Float) : Int :=
  ((Dyadic.ofFloat? x).map Dyadic.truncate).getD 0

/-- A double with two places, zeros at the end left out. -/
def centsText (x : Float) : Text :=
  match Dyadic.ofFloat? x with
  | some d => trimZeros (d.toPlaces 2).positional
  | none => recordText x

/-- The fields of a number of seconds: degrees, minutes and the seconds left. -/
def sexagesimalFields (seconds : Float) : Except FormatFault (Int × Int × Float) := do
  let degrees := truncateFloat (floorDivide seconds 3600)
  let rest ← minusWhole seconds (degrees * 3600)
  let minutes := truncateFloat (floorDivide rest 60)
  return (degrees, minutes, ← minusWhole rest (minutes * 60))

/-- A value in the sexagesimal format. -/
def formatSexagesimal (x : Float) : Except FormatFault Text := do
  let total := roundToCents (x.abs * 3600)
  if !total.isFinite then formatStandard fallbackDigits x
  else
    let (degrees, minutes, seconds) ← sexagesimalFields total
    return Decimal.signText (x < 0) ++ wholeText degrees ++ '°' :: wholeText minutes ++
      '′' :: centsText seconds ++ ['″']

end PocketCalculator
