import PocketCalculator.Format.Standard
import PocketCalculator.Number.BestFraction

/-! # The fraction format

The closest fraction with a bounded denominator.  A fraction above one can be shown as a mixed
number, whose whole part carries the sign. -/

namespace PocketCalculator

/-- A fraction in lowest terms. -/
def fractionText (mixed : Bool) (num : Int) (den : Nat) : Text :=
  if den = 1 then wholeText num
  else if mixed && den < num.natAbs then
    Decimal.signText (num < 0) ++ Decimal.digits (num.natAbs / den) ++ ' ' ::
      Decimal.digits (num.natAbs % den) ++ '/' :: Decimal.digits den
  else wholeText num ++ '/' :: Decimal.digits den

/-- A value in the fraction format. -/
def formatFraction (greatestDenominator : Int) (mixed : Bool) (x : Float) :
    Except FormatFault Text :=
  match Dyadic.ofFloat? x with
  | none => .error (if x.isNaN then .undefinedValue else .infiniteValue)
  | some d =>
    if greatestDenominator < 1 then .error .noDenominator
    else
      let size := d.magnitude
      let num : Int := if d.negative then -(size.num : Int) else size.num
      let (p, q) := BestFraction.closest greatestDenominator.toNat num size.den
      .ok (fractionText mixed p q)

end PocketCalculator
