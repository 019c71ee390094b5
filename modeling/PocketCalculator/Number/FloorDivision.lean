import PocketCalculator.Number.Dyadic

/-! # Division rounded down, in doubles

The remainder of a division of two doubles is exact, and takes the sign of the divisor.  What is
left after it is taken off is divided, and the quotient is rounded to the whole number next to
it. -/

namespace PocketCalculator

/-- The exact remainder of a division of finite doubles, with the sign of the dividend. -/
def exactRemainder (x y : Dyadic) : Float :=
  let q := min x.exponent y.exponent
  let a := x.mantissa * twoPow (x.exponent - q).toNat
  let b := y.mantissa * twoPow (y.exponent - q).toNat
  ((Ratio.ofNat (a % b)).mulTwoPow q).toFloat x.negative

/-- The greatest whole number not above a double, as a double. -/
def floorFloat (x : Float) : Float :=
  match Dyadic.ofFloat? x with
  | some d => nearestToInt d.floor
  | none => x

/-- The quotient of two doubles, rounded down; the divisor is finite and not zero. -/
def floorDivide (x y : Float) : Float :=
  match Dyadic.ofFloat? x, Dyadic.ofFloat? y with
  | some a, some b =>
    let r := exactRemainder a b
    let q := (x - r) / y
    let q := if r != 0 && (a.negative != b.negative) then q - 1 else q
    if q != 0 then
      let whole := floorFloat q
      if q - whole > 0.5 then whole + 1 else whole
    else floatOfMagnitude (signBit (x / y)) 0
  | _, _ => notANumber

end PocketCalculator
