import PocketCalculator.Number.Ratio

/-! # Doubles as exact numbers

A finite double is a sign, a mantissa and a power of two.  `Dyadic.ofFloat?` reads one off the bits
of the double, and `Ratio.toFloat` goes back: the double nearest to a ratio, a half going to the
even mantissa.  Both work on natural numbers only, so every statement about them is one of
arithmetic. -/

namespace PocketCalculator

/-! ### Reading a double -/

/-- The number `± mantissa · 2 ^ exponent`. -/
structure Dyadic where
  negative : Bool
  mantissa : Nat
  exponent : Int
  deriving DecidableEq, Repr

/-- The least exponent of a double, that of the numbers next to zero. -/
def leastExponent : Int := -1074

/-- How many bits of a double's pattern hold the fraction. -/
def fractionBits : Nat := 52

/-- The sign bit of a double. -/
def signBit (x : Float) : Bool :=
  twoPow 63 ≤ x.toBits.toNat

namespace Dyadic

/-- The exact value of a finite double. -/
def ofFloat? (x : Float) : Option Dyadic :=
  let bits := x.toBits.toNat
  let field := bits / twoPow fractionBits % 2048
  let fraction := bits % twoPow fractionBits
  if field = 2047 then none
  else if field = 0 then some ⟨signBit x, fraction, leastExponent⟩
  else some ⟨signBit x, fraction + twoPow fractionBits, leastExponent + (field - 1)⟩

/-- The absolute value as a ratio. -/
def magnitude (d : Dyadic) : Ratio :=
  (Ratio.ofNat d.mantissa).mulTwoPow d.exponent

/-- Whether the number is whole. -/
def isWhole (d : Dyadic) : Bool :=
  d.magnitude.num % d.magnitude.den == 0

/-- The whole number of largest size that is no larger in size: the digits before the point. -/
def truncate (d : Dyadic) : Int :=
  if d.negative then -(d.magnitude.floor : Int) else d.magnitude.floor

/-- The greatest whole number that is not above. -/
def floor (d : Dyadic) : Int :=
  if d.negative && !d.isWhole then d.truncate - 1 else d.truncate

end Dyadic

/-! ### Writing a double -/

/-- The double that has the given sign, and the given bits below it. -/
def floatOfMagnitude (negative : Bool) (bits : Nat) : Float :=
  Float.ofBits (UInt64.ofNat (if negative then bits + twoPow 63 else bits))

/-- The bits of positive infinity. -/
def infinityBits : Nat := 2047 * twoPow fractionBits

namespace Ratio

/-- The exponent of the grid of doubles around a ratio that is not zero. -/
def gridExponent (r : Ratio) : Int :=
  max (r.binaryExponent - fractionBits) leastExponent

/-- The bits of the double nearest to a ratio, infinity standing for what is too large.  A mantissa
that rounds up to a power of two carries into the exponent, which is how the patterns are laid out.
-/
def nearestBits (r : Ratio) : Nat :=
  if r.num = 0 then 0
  else
    let q := r.gridExponent
    min ((q - leastExponent).toNat * twoPow fractionBits + (r.mulTwoPow (-q)).round .toEven)
      infinityBits

/-- The double nearest to a ratio with a sign. -/
def toFloat (negative : Bool) (r : Ratio) : Float :=
  floatOfMagnitude negative r.nearestBits

end Ratio

/-! ### Special doubles -/

/-- Positive or negative infinity. -/
def infinite (negative : Bool) : Float :=
  floatOfMagnitude negative infinityBits

/-- The double that is not a number. -/
def notANumber : Float :=
  Float.ofBits 0x7FF8000000000000

/-- The double nearest to a whole number, infinite when it is too large. -/
def nearestToInt (n : Int) : Float :=
  (Ratio.ofNat n.natAbs).toFloat (decide (n < 0))

end PocketCalculator
