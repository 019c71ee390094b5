import PocketCalculator.Text
import PocketCalculator.Number.Dyadic

/-! # Decimals

A decimal is a sign, a whole coefficient and a power of ten.  This module has its arithmetic
(normal form, rounding to a number of places, the nearest double) and its two written forms:
positional, with as many digits behind the point as the exponent asks for, and scientific, with
one digit before the point. -/

namespace PocketCalculator

/-- The number `± coefficient · 10 ^ exponent`. -/
structure Decimal where
  negative : Bool
  coefficient : Nat
  exponent : Int
  deriving DecidableEq, Repr

namespace Decimal

/-! ### Values -/

/-- The absolute value as a ratio. -/
def magnitude (d : Decimal) : Ratio :=
  (Ratio.ofNat d.coefficient).mulTenPow d.exponent

/-- The exponent of the leading digit. -/
def leadingExponent (d : Decimal) : Int :=
  d.exponent + (Ratio.decimalLength d.coefficient - 1)

/-- The double nearest to a decimal.  What is beyond `10 ^ 400` is infinite, and what is below
`10 ^ -400` is zero, without any arithmetic. -/
def toFloat (d : Decimal) : Float :=
  if d.coefficient = 0 || d.leadingExponent < -400 then floatOfMagnitude d.negative 0
  else if 400 < d.leadingExponent then infinite d.negative
  else d.magnitude.toFloat d.negative

/-! ### Normal form -/

/-- Takes zeros off the end of a coefficient and adds them to the exponent, `fuel` at most. -/
def dropZeros : (fuel : Nat) → Nat → Int → Nat × Int
  | 0, c, e => (c, e)
  | fuel + 1, c, e => if c % 10 = 0 then dropZeros fuel (c / 10) (e + 1) else (c, e)

/-- The same number with no zero at the end of the coefficient; zero gets the exponent zero. -/
def normalize (d : Decimal) : Decimal :=
  if d.coefficient = 0 then ⟨d.negative, 0, 0⟩
  else
    let (c, e) := dropZeros (Ratio.decimalLength d.coefficient) d.coefficient d.exponent
    ⟨d.negative, c, e⟩

/-- The decimal with `places` digits behind the point that is nearest to a magnitude. -/
def ofRatio (tie : Tie) (negative : Bool) (r : Ratio) (places : Nat) : Decimal :=
  ⟨negative, (r.mulTenPow places).round tie, -places⟩

/-! ### Written forms -/

/-- The digits of a natural number. -/
def digits (n : Nat) : Text :=
  Nat.toDigits 10 n

/-- The sign in front of a number. -/
def signText (negative : Bool) : Text :=
  if negative then ['-'] else []

/-- All digits, with a point where the exponent puts it and no exponent.  A negative exponent
fixes how many digits stand behind the point; otherwise there is no point. -/
def positional (d : Decimal) : Text :=
  signText d.negative ++
    match d.exponent with
    | .ofNat e => if d.coefficient = 0 then ['0'] else digits d.coefficient ++ List.replicate e '0'
    | .negSucc e =>
      let places := e + 1
      let all := Text.padLeft (places + 1) '0' (digits d.coefficient)
      let whole := all.length - places
      all.take whole ++ '.' :: all.drop whole

/-- One digit before the point, the others behind it, and the exponent with its sign and at least
two digits. -/
def scientific (d : Decimal) : Text :=
  let lead := d.leadingExponent
  let fraction := (digits d.coefficient).drop 1
  signText d.negative ++ (digits d.coefficient).take 1 ++
    (if fraction = [] then [] else '.' :: fraction) ++
    'e' :: (if lead < 0 then '-' else '+') :: Text.padLeft 2 '0' (digits lead.natAbs)

end Decimal
end PocketCalculator
