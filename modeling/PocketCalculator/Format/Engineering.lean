import PocketCalculator.Format.Standard
import PocketCalculator.Symbol
import PocketCalculator.Elementary.Exponential
import PocketCalculator.Number.FloorDivision

/-! # The engineering format

A mantissa and a power of ten whose exponent is a multiple of three.  The exponent comes from the
common logarithm, the mantissa from the shortest decimal with the point moved; when the mantissa
rounds up to a thousand, the exponent moves on.  The logarithms in use differ in their last places,
so the logarithm is an argument (`formatEngineeringBy`). -/

namespace PocketCalculator

/-- A text without the zeros at the end behind a point, and zero without a sign. -/
def trimZeros (t : Text) : Text :=
  let t := if t.contains '.' then Text.dropTrailing '.' (Text.dropTrailing '0' t) else t
  if t = ['-', '0'] ∨ t = [] then ['0'] else t

/-- The exponent of the engineering format: the common logarithm of the size, divided by three and
rounded down, times three. -/
def engineeringExponent (log10 : Float → Float) (x : Float) : Int :=
  match Dyadic.ofFloat? (log10 x.abs / 3) with
  | some d => d.floor * 3
  | none => 0

/-- The double nearest to the shortest decimal with the point moved by `places` to the left. -/
def movePoint (d : Dyadic) (places : Int) : Float :=
  { d.shortest with exponent := d.shortest.exponent - places }.toFloat

/-- Whether a mantissa with `count` digits reaches a thousand. -/
def roundsToThousand (mantissa : Float) (count : Nat) : Bool :=
  match Dyadic.ofFloat? mantissa with
  | some d => 1000 ≤ (d.significant (effectiveCount count)).toFloat.abs
  | none => false

/-- A value in the engineering format, with the common logarithm given. -/
def formatEngineeringBy (log10 : Float → Float) (digits : Int) (x : Float) :
    Except FormatFault Text :=
  match Dyadic.ofFloat? x with
  | none => .error (if x.isNaN then .undefinedValue else .infiniteValue)
  | some d =>
    if d.mantissa = 0 then .ok ['0']
    else
      withDigits digits fun count =>
        let exponent := engineeringExponent log10 x
        let mantissa := movePoint d exponent
        let carry := roundsToThousand mantissa count
        let mantissa := if carry then mantissa / 1000 else mantissa
        let exponent := if carry then exponent + 3 else exponent
        let text := trimZeros (significantText mantissa count)
        if exponent = 0 then text else text ++ Marker.tenPower.text ++ wholeText exponent

/-- A value in the engineering format. -/
def formatEngineering (digits : Int) (x : Float) : Except FormatFault Text :=
  formatEngineeringBy log10Double digits x

end PocketCalculator
