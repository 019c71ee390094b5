import PocketCalculator.Elementary.Enclosure
import PocketCalculator.Number.Decimal

/-! # Powers and logarithms

The exponential, the power of ten and the natural logarithm are correctly rounded.  The common
logarithm is not: it is put together from the natural one as mathematical libraries do, with a
rounding in each step.  Just below a power of ten it may come out as the exponent itself. -/

namespace PocketCalculator

/-! ### Exponentials -/

/-- Encloses `exp (x · 2 ^ -scale)`: multiples of `ln 2` are taken out of `x`, and the rest is
summed. -/
def expEnclosure (scale : Nat) (x : Int) : Enclosure :=
  let ln2 := lnTwoFixed scale
  let k := x / ln2
  let rest := x % ln2
  let sum := sumSeries scale rest (fun n => n) (fun _ => 1) scale 0 (twoPow scale) 0
  .around sum slack (scale - k)

/-- The exponential of a double. -/
def expDouble (x : Float) : Float :=
  match Dyadic.ofFloat? x with
  | none => if x.isNaN then x else if signBit x then 0 else x
  | some d =>
    if 710 ≤ d.floor then infinite false
    else if d.floor < -746 then 0
    else if d.mantissa = 0 then 1
    else nearestDouble fun p => expEnclosure (p + guardBits) (d.toFixed (p + guardBits))

/-- Ten to the power of a double; whole exponents are exact before the rounding. -/
def tenPowerDouble (x : Float) : Float :=
  match Dyadic.ofFloat? x with
  | none => if x.isNaN then x else if signBit x then 0 else x
  | some d =>
    if 310 ≤ d.floor then infinite false
    else if d.floor < -326 then 0
    else if d.isWhole then Decimal.toFloat ⟨false, 1, d.truncate⟩
    else
      nearestDouble fun p =>
        let scale := p + guardBits
        let size := d.magnitude.num * lnTenFixed scale / d.magnitude.den
        expEnclosure scale (if d.negative then -size else size)

/-! ### Logarithms -/

/-- The natural logarithm of a double above zero. -/
def lnDouble (x : Float) : Float :=
  match Dyadic.ofFloat? x with
  | none => x
  | some d =>
    if x == 1 then 0
    else
      nearestDouble fun p =>
        let scale := p + guardBits
        .around (lnFixed scale d.magnitude) slack scale

/-- The reciprocal of the natural logarithm of ten. -/
def lnTenReciprocal : Float := 0.4342944819032518

/-- The common logarithm of two, to so few bits that its products with exponents are exact. -/
def logTwoHigh : Float := 0.30102999566361177

/-- What the common logarithm of two has beyond these bits. -/
def logTwoLow : Float := 3.694239077158931e-13

/-- The common logarithm of a double above zero.  A power of two is taken out, which leaves a number
from one half up to two on the same side of one as the double, so both logarithms have one sign. -/
def log10Double (x : Float) : Float :=
  match Dyadic.ofFloat? x with
  | none => x
  | some d =>
    let k := d.magnitude.binaryExponent
    let power := if k < 0 then k + 1 else k
    let rest := (d.magnitude.mulTwoPow (-power)).toFloat false
    let count := nearestToInt power.natAbs
    let size := count * logTwoLow + lnTenReciprocal * (lnDouble rest).abs + count * logTwoHigh
    if k < 0 then -size else size

end PocketCalculator
