import PocketCalculator.Number.Dyadic

/-! # The closest fraction with a bounded denominator

The continued fraction of a rational gives its convergents.  With the last convergent whose
denominator keeps within the bound, and the last fraction between it and the rational that does so
too, one of the closest fractions is found; when both are equally close it is the convergent. -/

namespace PocketCalculator.BestFraction

/-- The last two convergents found, the older one first. -/
structure Convergents where
  num₀ : Int
  den₀ : Nat
  num₁ : Int
  den₁ : Nat
  deriving DecidableEq, Repr

/-- What every expansion starts with. -/
def Convergents.start : Convergents :=
  ⟨0, 1, 1, 0⟩

/-- The convergents after the partial quotient `a`. -/
def Convergents.next (c : Convergents) (a : Int) : Convergents :=
  ⟨c.num₁, c.den₁, c.num₀ + a * c.num₁, c.den₀ + a.toNat * c.den₁⟩

/-- The convergents reached before the denominator passes `bound`, for the remaining quotient
`num / den`.  Only the first partial quotient can be negative, and it meets the denominator zero. -/
def expand (bound : Nat) (c : Convergents) (num : Int) (den : Nat) : Convergents :=
  if _ : den = 0 then c
  else
    let a := num / den
    if bound < c.den₀ + a.toNat * c.den₁ then c
    else expand bound (c.next a) den (num % den).toNat
termination_by den
decreasing_by
  have hd : (den : Int) ≠ 0 := by omega
  have := Int.emod_lt_of_pos num (show (0 : Int) < den by omega)
  have := Int.emod_nonneg num hd
  omega

/-- A fraction with a denominator of at most `bound` that is closest to `num / den`, in lowest
terms.  Both `bound` and `den` are at least one. -/
def closest (bound : Nat) (num : Int) (den : Nat) : Int × Nat :=
  let g := Nat.gcd num.natAbs den
  let num := num / g
  let den := den / g
  if den ≤ bound then (num, den)
  else
    let c := expand bound .start num den
    let k := (bound - c.den₀) / c.den₁
    let num₂ := c.num₀ + k * c.num₁
    let den₂ := c.den₀ + k * c.den₁
    -- the two distances from `num / den`, both times `den₁ · den₂ · den`
    let error₁ := (c.num₁ * den - num * c.den₁).natAbs * den₂
    let error₂ := (num₂ * den - num * den₂).natAbs * c.den₁
    if error₁ ≤ error₂ then (c.num₁, c.den₁) else (num₂, den₂)

end PocketCalculator.BestFraction
