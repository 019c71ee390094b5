import PocketCalculator.Elementary.Enclosure

/-! # Circular functions

Sine, cosine, tangent and their inverses of doubles, in radians, correctly rounded.  An argument is
reduced by the nearest multiple of a right angle, with the circle constant to as many bits as the
size of the argument asks for. -/

namespace PocketCalculator

/-! ### Reduced arguments -/

/-- An angle as a number of right angles and a rest, whose sine and cosine are known up to `margin`
units of `2 ^ -scale`. -/
structure ReducedAngle where
  quadrant : Nat
  sine : Int
  cosine : Int
  margin : Nat
  scale : Nat

/-- How many bits lie between one and a double, above it or below it. -/
def Dyadic.distanceFromOne (d : Dyadic) : Nat × Nat :=
  let e := d.magnitude.binaryExponent
  (e.toNat, (-e).toNat)

/-- Reduces an angle that is not zero. -/
def ReducedAngle.ofDyadic (d : Dyadic) (precision : Nat) : ReducedAngle :=
  let (above, below) := d.distanceFromOne
  let scale := precision + guardBits + above + below
  let x := d.toFixed scale
  let right := piFixed scale / 2
  let k := (x + right / 2) / right
  let rest := x - k * right
  let factor := -(rest * rest / twoPow scale)
  { quadrant := (k % 4).toNat
    sine := sumSeries scale factor (fun n => 2 * n * (2 * n + 1)) (fun _ => 1) scale 0 rest 0
    cosine :=
      sumSeries scale factor (fun n => (2 * n - 1) * (2 * n)) (fun _ => 1) scale 0 (twoPow scale) 0
    margin := slack * twoPow above
    scale }

namespace ReducedAngle

/-- Encloses the sine of an angle. -/
def sineEnclosure (a : ReducedAngle) : Enclosure :=
  let value :=
    match a.quadrant with
    | 0 => a.sine
    | 1 => a.cosine
    | 2 => -a.sine
    | _ => -a.cosine
  .around value a.margin a.scale

/-- The same angle one right angle further on. -/
def turned (a : ReducedAngle) : ReducedAngle :=
  { a with quadrant := (a.quadrant + 1) % 4 }

/-- Encloses the cosine of an angle, which is the sine one right angle further on. -/
def cosineEnclosure (a : ReducedAngle) : Enclosure :=
  a.turned.sineEnclosure

/-- Encloses the tangent of an angle: the quotient of the sizes, with the sign in front. -/
def tangentEnclosure (a : ReducedAngle) : Enclosure :=
  let odd := a.quadrant % 2 == 1
  let numerator := if odd then a.cosine else a.sine
  let denominator := if odd then a.sine else a.cosine
  let negative := odd ^^ (decide (numerator < 0) ^^ decide (denominator < 0))
  let low := (numerator.natAbs - a.margin) * twoPow a.scale / (denominator.natAbs + a.margin)
  let high := (numerator.natAbs + a.margin) * twoPow a.scale / (denominator.natAbs - a.margin) + 1
  Enclosure.withSign negative ⟨low, high, a.scale⟩

end ReducedAngle

/-- A function of a finite angle that is not zero, with the values at zero and beyond the finite
angles given. -/
def ofAngle (atZero : Float → Float) (enclose : ReducedAngle → Enclosure) (x : Float) : Float :=
  match Dyadic.ofFloat? x with
  | none => notANumber
  | some d =>
    if d.mantissa = 0 then atZero x
    else nearestDouble fun p => enclose (.ofDyadic d p)

/-- The sine. -/
def sinDouble (x : Float) : Float :=
  ofAngle id ReducedAngle.sineEnclosure x

/-- The cosine. -/
def cosDouble (x : Float) : Float :=
  ofAngle (fun _ => 1) ReducedAngle.cosineEnclosure x

/-- The tangent. -/
def tanDouble (x : Float) : Float :=
  ofAngle id ReducedAngle.tangentEnclosure x

/-! ### Inverse functions -/

/-- `arctan z` for a `z` from zero to one: three times, the angle is halved by
`tan (a / 2) = tan a / (1 + sqrt (1 + tan² a))`. -/
def arctanFixed (scale : Nat) (z : Nat) : Int :=
  let one := twoPow scale
  let half (z : Nat) : Nat := z * one / (one + sqrtFloor (one * one + z * z))
  8 * arctanSmallFixed scale (half (half (half z)))

/-- The angle in a right triangle with the given legs, not both zero. -/
def angleFixed (scale opposite adjacent : Nat) : Int :=
  if opposite ≤ adjacent then arctanFixed scale (opposite * twoPow scale / adjacent)
  else piFixed scale / 2 - arctanFixed scale (adjacent * twoPow scale / opposite)

/-- The scale that keeps `precision` bits of a number, however small it is. -/
def Dyadic.inverseScale (d : Dyadic) (precision : Nat) : Nat :=
  precision + guardBits + d.distanceFromOne.2

/-- The legs of the triangle with the hypotenuse one and the leg `|d|`, this leg first. -/
def Dyadic.legs (d : Dyadic) (scale : Nat) : Nat × Nat :=
  let x := d.magnitude.toFixed scale
  (x, sqrtFloor (twoPow scale * twoPow scale - x * x))

/-- The inverse sine, for a double from -1 to 1. -/
def arcsinDouble (x : Float) : Float :=
  match Dyadic.ofFloat? x with
  | none => notANumber
  | some d =>
    if d.mantissa = 0 then x
    else
      nearestDouble fun p =>
        let scale := d.inverseScale p
        let (x, y) := d.legs scale
        .withSign d.negative (.around (angleFixed scale x y) slack scale)

/-- The inverse cosine, for a double from -1 to 1. -/
def arccosDouble (x : Float) : Float :=
  match Dyadic.ofFloat? x with
  | none => notANumber
  | some d =>
    if x == 1 then 0
    else
      nearestDouble fun p =>
        let scale := p + guardBits
        let (x, y) := d.legs scale
        let angle := angleFixed scale y x
        .around (if d.negative then piFixed scale - angle else angle) slack scale

/-- The inverse tangent. -/
def arctanDouble (x : Float) : Float :=
  match Dyadic.ofFloat? x with
  | none =>
    if x.isNaN then x
    else
      nearestDouble fun p =>
        .withSign (signBit x) (.around (piFixed (p + guardBits) / 2) slack (p + guardBits))
  | some d =>
    if d.mantissa = 0 then x
    else
      nearestDouble fun p =>
        let scale := d.inverseScale p
        .withSign d.negative
          (.around (angleFixed scale d.magnitude.num d.magnitude.den) slack scale)

end PocketCalculator
