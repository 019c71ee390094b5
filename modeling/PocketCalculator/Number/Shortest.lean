import PocketCalculator.Number.Decimal

/-! # The shortest decimal of a double

Of all decimals that read back as a given double, the ones with the fewest digits, and of these the
one nearest to the double.  The reals that read back form an interval around the double, which
holds its ends exactly when the mantissa is even.  For one digit, two digits and so on, the two
decimals on either side of the double are tried; the first grid with a decimal in the interval
wins, and of two the nearer one, or on a tie the even one. -/

namespace PocketCalculator

/-! ### The interval of a double -/

/-- The reals that round to one positive double. -/
structure RoundingInterval where
  lower : Ratio
  upper : Ratio
  closed : Bool

namespace RoundingInterval

/-- The interval of `mantissa · 2 ^ exponent`.  Below a power of two the doubles lie twice as
close, except at the bottom of the range. -/
def ofDyadic (d : Dyadic) : RoundingInterval :=
  let below := if d.mantissa = twoPow fractionBits ∧ leastExponent < d.exponent then 1 else 2
  ⟨(Ratio.ofNat (4 * d.mantissa - below)).mulTwoPow (d.exponent - 2),
   (Ratio.ofNat (4 * d.mantissa + 2)).mulTwoPow (d.exponent - 2),
   d.mantissa % 2 == 0⟩

/-- Membership, the ends counting when the interval is closed. -/
def contains (i : RoundingInterval) (r : Ratio) : Bool :=
  if i.closed then i.lower.le r && r.le i.upper else i.lower.lt r && r.lt i.upper

end RoundingInterval

/-! ### The search -/

namespace Shortest

/-- The nearest of the two decimals with `count` digits around `r` that lie in the interval. -/
def onGrid? (i : RoundingInterval) (r : Ratio) (count : Nat) : Option Decimal :=
  let unit := r.decimalExponent - count + 1
  let low := (r.mulTenPow (-unit)).floor
  let value (c : Nat) := (Ratio.ofNat c).mulTenPow unit
  let pick (c : Nat) : Option Decimal := some (Decimal.normalize ⟨false, c, unit⟩)
  match i.contains (value low), i.contains (value (low + 1)) with
  | false, false => none
  | true, false => pick low
  | false, true => pick (low + 1)
  | true, true =>
    let below := r.distance (value low)
    let above := r.distance (value (low + 1))
    if below.lt above then pick low
    else if above.lt below then pick (low + 1)
    else if low % 2 = 0 then pick low else pick (low + 1)

/-- The shortest decimal of a positive double. -/
def ofPositive (d : Dyadic) : Decimal :=
  let r := d.magnitude
  let i := RoundingInterval.ofDyadic d
  match (List.range 17).findSome? fun n => onGrid? i r (n + 1) with
  | some c => c
  | none => ⟨false, (r.mulTenPow (16 - r.decimalExponent)).floor, r.decimalExponent - 16⟩

end Shortest

/-- The shortest decimal that reads back as the double `d`; zero has the coefficient zero. -/
def Dyadic.shortest (d : Dyadic) : Decimal :=
  if d.mantissa = 0 then ⟨d.negative, 0, 0⟩
  else { Shortest.ofPositive d with negative := d.negative }

end PocketCalculator
