import PocketCalculator.Number.Written

/-! # Significant digits

A double with at most `count` significant digits.  The digits come from the exact binary value, a
half going to the even digit, and zeros at the end are left out.  The text is positional while the
exponent of the leading digit is at least -4 and less than `count`, otherwise scientific. -/

namespace PocketCalculator

/-- The decimal with `count` digits that is nearest to a ratio above zero. -/
def Ratio.significant (r : Ratio) (count : Nat) : Decimal :=
  let unit := r.decimalExponent - count + 1
  Decimal.normalize ⟨false, (r.mulTenPow (-unit)).round .toEven, unit⟩

/-- The decimal with `count` digits that is nearest to a finite double. -/
def Dyadic.significant (d : Dyadic) (count : Nat) : Decimal :=
  if d.mantissa = 0 then ⟨d.negative, 0, 0⟩
  else { d.magnitude.significant count with negative := d.negative }

/-- A bound for the significant digits of doubles, of which none has more than 767.  It is also
above every exponent of a leading digit. -/
def greatestCount : Nat := 800

/-- How many digits are looked for when `count` are asked for: no digit counts as one, and what is
beyond the bound would find nothing more. -/
def effectiveCount (count : Nat) : Nat :=
  max 1 (min count greatestCount)

/-- A finite double with `count` significant digits. -/
def Dyadic.significantText (d : Dyadic) (count : Nat) : Text :=
  let count := effectiveCount count
  let c := d.significant count
  if -4 ≤ c.leadingExponent ∧ c.leadingExponent < count then c.positional else c.scientific

/-- Any double with `count` significant digits. -/
def significantText (x : Float) (count : Nat) : Text :=
  match Dyadic.ofFloat? x with
  | some d => d.significantText count
  | none => recordText x

end PocketCalculator
