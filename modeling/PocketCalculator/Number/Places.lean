import PocketCalculator.Number.Written

/-! # Numbers with a fixed number of places

Two roundings to a number of digits behind the point: of the shortest decimal, a half going away
from zero, and of the exact binary value, a half going to the even digit. -/

namespace PocketCalculator

/-- A decimal rounded to `places` digits behind the point, a half going away from zero. -/
def Decimal.toPlaces (d : Decimal) (places : Nat) : Decimal :=
  .ofRatio .awayFromZero d.negative d.magnitude places

/-- A double rounded to `places` digits behind the point from its exact value. -/
def Dyadic.toPlaces (d : Dyadic) (places : Nat) : Decimal :=
  .ofRatio .toEven d.negative d.magnitude places

/-- The double nearest to a double rounded to two digits behind the point. -/
def roundToCents (x : Float) : Float :=
  match Dyadic.ofFloat? x with
  | some d => (d.toPlaces 2).toFloat
  | none => x

end PocketCalculator
