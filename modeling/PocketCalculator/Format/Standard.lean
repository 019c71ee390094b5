import PocketCalculator.Format.Fault
import PocketCalculator.Number.Significant

/-! # The standard format

Whole numbers below `10 ^ 16` are shown in full, everything else with a given number of significant
digits. -/

namespace PocketCalculator

/-- The greatest number of significant digits that can be asked for. -/
def greatestDigits : Int := 2147483647

/-- What is shown with a number of significant digits, if there is such a number. -/
def withDigits (digits : Int) (shown : Nat → Text) : Except FormatFault Text :=
  if digits < 0 ∨ greatestDigits < digits then .error .digitsOutOfRange
  else .ok (shown digits.toNat)

/-- Whether a whole number is short enough to be shown in full. -/
def isShortWhole (d : Dyadic) : Bool :=
  d.isWhole && d.truncate.natAbs < tenPow 16

/-- The text of a whole number. -/
def wholeText (n : Int) : Text :=
  Decimal.signText (decide (n < 0)) ++ Decimal.digits n.natAbs

/-- A value in the standard format. -/
def formatStandard (digits : Int) (x : Float) : Except FormatFault Text :=
  match Dyadic.ofFloat? x with
  | some d =>
    if isShortWhole d then .ok (wholeText d.truncate)
    else withDigits digits fun n => d.significantText n
  | none => withDigits digits fun _ => recordText x

end PocketCalculator
