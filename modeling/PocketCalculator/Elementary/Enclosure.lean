import PocketCalculator.Number.Dyadic

/-! # Enclosures of real numbers

The elementary functions are computed in whole numbers.  A real number is enclosed between two
multiples of a power of two; when both ends round to the same double, that double is the correctly
rounded value.  `nearestDouble` asks for closer and closer enclosures until this happens.

The sums behind the enclosures are kept in units of `2 ^ -scale`, and every operation on them is off
by a few units.  A hundred terms stay far below the `slack` of `2 ^ 32` units that is put on both
sides, and the 64 guard bits leave room for it. -/

namespace PocketCalculator

/-- The interval from `lower` to `upper`, both in units of `2 ^ -scale`. -/
structure Enclosure where
  lower : Int
  upper : Int
  scale : Int

namespace Enclosure

/-- The double nearest to `n · 2 ^ -scale`. -/
def endpoint (n scale : Int) : Float :=
  ((Ratio.ofNat n.natAbs).mulTwoPow (-scale)).toFloat (decide (n < 0))

/-- The double that both ends round to. -/
def toFloat? (e : Enclosure) : Option Float :=
  let low := endpoint e.lower e.scale
  let high := endpoint e.upper e.scale
  if low.toBits = high.toBits then some low else none

/-- `value`, up to `slack` units either way. -/
def around (value : Int) (slack : Nat) (scale : Int) : Enclosure :=
  ⟨value - slack, value + slack, scale⟩

/-- The opposite number. -/
def neg (e : Enclosure) : Enclosure :=
  ⟨-e.upper, -e.lower, e.scale⟩

/-- The opposite number, or the number itself. -/
def withSign (negative : Bool) (e : Enclosure) : Enclosure :=
  if negative then e.neg else e

end Enclosure

/-- How many units a sum may be off. -/
def slack : Nat := twoPow 32

/-- The bits kept beyond the precision asked for. -/
def guardBits : Nat := 64

/-- The double nearest to the real number that `enclose` encloses, to so many bits as asked. -/
def nearestDouble (enclose : (precision : Nat) → Enclosure) : Float :=
  match [128, 256, 512].findSome? fun p => (enclose p).toFloat? with
  | some x => x
  | none =>
    let last := enclose 1024
    Enclosure.endpoint last.lower last.scale

/-! ### Sums in fixed point -/

/-- A ratio in units of `2 ^ -scale`, rounded down. -/
def Ratio.toFixed (r : Ratio) (scale : Nat) : Nat :=
  r.num * twoPow scale / r.den

/-- A signed dyadic in units of `2 ^ -scale`, rounded toward zero. -/
def Dyadic.toFixed (d : Dyadic) (scale : Nat) : Int :=
  if d.negative then -(d.magnitude.toFixed scale : Int) else d.magnitude.toFixed scale

/-- The sum of `power / weight n` from the term `n` on, where each power is the last one times
`factor` and divided by `divisor n`; at most `fuel` terms. -/
def sumSeries (scale : Nat) (factor : Int) (divisor weight : Nat → Nat) :
    (fuel n : Nat) → (power sum : Int) → Int
  | 0, _, _, sum => sum
  | fuel + 1, n, power, sum =>
    if power = 0 then sum
    else
      sumSeries scale factor divisor weight fuel (n + 1)
        ((power * factor).tdiv (twoPow scale * divisor (n + 1))) (sum + power.tdiv (weight n))

/-- `artanh z`, for a `z` of size at most one half. -/
def artanhFixed (scale : Nat) (z : Int) : Int :=
  sumSeries scale (z * z / twoPow scale) (fun _ => 1) (fun n => 2 * n + 1) scale 0 z 0

/-- `arctan z`, for a `z` of size at most one half. -/
def arctanSmallFixed (scale : Nat) (z : Int) : Int :=
  sumSeries scale (-(z * z / twoPow scale)) (fun _ => 1) (fun n => 2 * n + 1) scale 0 z 0

/-- The natural logarithm of two. -/
def lnTwoFixed (scale : Nat) : Int :=
  2 * artanhFixed scale (twoPow scale / 3)

/-- The circle constant, as sixteen times the arctangent of 1/5 less four times that of 1/239. -/
def piFixed (scale : Nat) : Int :=
  16 * arctanSmallFixed scale (twoPow scale / 5) - 4 * arctanSmallFixed scale (twoPow scale / 239)

/-- The natural logarithm of a ratio above zero: the nearest power of two is taken out, and the
rest `y` has the logarithm `2 artanh ((y - 1) / (y + 1))`. -/
def lnFixed (scale : Nat) (r : Ratio) : Int :=
  let k := r.binaryExponent
  let y := r.mulTwoPow (-k)
  let (k, y) := if (⟨3, 2, by decide⟩ : Ratio).le y then (k + 1, y.mulTwoPow (-1)) else (k, y)
  let z := ((y.num : Int) - y.den) * twoPow scale / (y.num + y.den)
  2 * artanhFixed scale z + k * lnTwoFixed scale

/-- The natural logarithm of ten. -/
def lnTenFixed (scale : Nat) : Int :=
  lnFixed scale (.ofNat 10)

/-- The whole part of a square root, by steps downwards from `guess`, at most `fuel`. -/
def sqrtSteps (n : Nat) : (fuel guess : Nat) → Nat
  | 0, guess => guess
  | fuel + 1, guess =>
    let next := (guess + n / guess) / 2
    if next < guess then sqrtSteps n fuel next else guess

/-- The whole part of a square root. -/
def sqrtFloor (n : Nat) : Nat :=
  sqrtSteps n (n.log2 + 2) (twoPow (n.log2 / 2 + 1))

end PocketCalculator
