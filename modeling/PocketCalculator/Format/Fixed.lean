import PocketCalculator.Format.Fault
import PocketCalculator.Number.Places

/-! # The fixed format

A fixed number of decimal places.  The shortest decimal of the value is rounded, a half going away
from zero, and zero is shown without a sign.  A number with more than 400 digits is refused. -/

namespace PocketCalculator

/-- How many digits a fixed number may have, leading zeros not counted. -/
def greatestFixedLength : Nat := 400

/-- A number of places beyond this one counts as this one. -/
def greatestPlaces : Nat := 1000026

/-- The number of places beyond which nothing is shown. -/
def placesLimit : Int := 2000054

/-- Whether a decimal has too many digits in front of the last place, before it is rounded. -/
def isTooLong (d : Decimal) (places : Nat) : Bool :=
  d.coefficient ≠ 0 && (greatestFixedLength : Int) ≤ d.leadingExponent + places

/-- A decimal rounded to a number of places, unless it gets too many digits. -/
def fixedDecimal (d : Decimal) (places : Nat) : Except FormatFault Decimal :=
  if isTooLong d places then .error .tooManyDigits
  else
    let rounded := d.toPlaces (min places greatestPlaces)
    if tenPow greatestFixedLength ≤ rounded.coefficient then .error .tooManyDigits
    else .ok { rounded with negative := rounded.negative && rounded.coefficient ≠ 0 }

/-- A value in the fixed format; a negative number of places counts as none. -/
def formatFixed (places : Int) (x : Float) : Except FormatFault Text :=
  if placesLimit < places then .error .tooManyDigits
  else
    match Dyadic.ofFloat? x with
    | some d => (fixedDecimal d.shortest places.toNat).map Decimal.positional
    | none => if x.isNaN then .ok ['N', 'a', 'N'] else .error .tooManyDigits

end PocketCalculator
