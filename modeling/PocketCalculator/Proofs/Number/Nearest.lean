import PocketCalculator.Number.Shortest
import PocketCalculator.Proofs.Number.Bits
import PocketCalculator.Proofs.Number.Rational

/-! # Reading inside of a rounding interval

Whatever lies in the rounding interval of a double reads back as that double:
`Ratio.toFloat_of_contains`.  The ratio is rounded on the grid that its own size picks.  This is the
grid of the double except just below a power of two, where the ratio lies one binade lower and its
mantissa rounds up to the power, which the layout of the bits carries into the exponent. -/

namespace PocketCalculator

variable {d : Dyadic} {r : Ratio}

/-! ### The interval as rational numbers -/

namespace RoundingInterval

theorem contains_iff (i : RoundingInterval) :
    i.contains r = true ↔
      i.lower.toRat ≤ r.toRat ∧ r.toRat ≤ i.upper.toRat ∧
        (i.closed = false → i.lower.toRat < r.toRat ∧ r.toRat < i.upper.toRat) := by
  unfold contains
  cases i.closed with
  | true =>
      simp only [if_true, Bool.and_eq_true, Ratio.le_iff]
      tauto
  | false =>
      simp only [Bool.false_eq_true, if_false, Bool.and_eq_true, Ratio.lt_iff]
      constructor
      · rintro ⟨h₁, h₂⟩
        exact ⟨h₁.le, h₂.le, fun _ => ⟨h₁, h₂⟩⟩
      · rintro ⟨-, -, h⟩
        exact h trivial

/-- How far the interval of a double reaches down, in steps of its grid. -/
def reach (d : Dyadic) : ℚ :=
  if d.mantissa = twoPow fractionBits ∧ leastExponent < d.exponent then 1 / 4 else 1 / 2

theorem reach_pos (d : Dyadic) : 0 < reach d := by
  unfold reach
  split <;> norm_num

theorem reach_le (d : Dyadic) : reach d ≤ 1 / 2 := by
  unfold reach
  split <;> norm_num

theorem two_zpow_eq (k : ℤ) : (2 : ℚ) ^ k = 2 ^ (k - 2) * 4 := by
  rw [zpow_sub₀ two_ne_zero]
  norm_num

theorem toRat_lower (hm : 0 < d.mantissa) :
    (ofDyadic d).lower.toRat = (d.mantissa - reach d) * 2 ^ d.exponent := by
  rw [ofDyadic, Ratio.toRat_mulTwoPow, Ratio.toRat_ofNat, two_zpow_eq d.exponent, reach]
  split
  · rw [Nat.cast_sub (by omega)]
    push_cast
    ring
  · rw [Nat.cast_sub (by omega)]
    push_cast
    ring

theorem toRat_upper : (ofDyadic d).upper.toRat = (d.mantissa + 1 / 2) * 2 ^ d.exponent := by
  rw [ofDyadic, Ratio.toRat_mulTwoPow, Ratio.toRat_ofNat, two_zpow_eq d.exponent]
  push_cast
  ring

end RoundingInterval

open RoundingInterval

theorem steps_of_contains (hm : 0 < d.mantissa) (h : (ofDyadic d).contains r = true) :
    ∃ u : ℚ, r.toRat = u * 2 ^ d.exponent ∧ d.mantissa - reach d ≤ u ∧ u ≤ d.mantissa + 1 / 2 ∧
      (d.mantissa % 2 ≠ 0 → d.mantissa - reach d < u ∧ u < d.mantissa + 1 / 2) := by
  have h2 : (0 : ℚ) < 2 ^ d.exponent := zpow_pos two_pos _
  rw [contains_iff, toRat_lower hm, toRat_upper] at h
  obtain ⟨h₁, h₂, h₃⟩ := h
  have hr : r.toRat = r.toRat / 2 ^ d.exponent * 2 ^ d.exponent := (div_mul_cancel₀ _ h2.ne').symm
  refine ⟨_, hr, (le_div_iff₀ h2).2 h₁, (div_le_iff₀ h2).2 h₂, fun hodd => ?_⟩
  obtain ⟨h₄, h₅⟩ := h₃ (by rw [ofDyadic]; exact beq_eq_false_iff_ne.2 hodd)
  exact ⟨(lt_div_iff₀ h2).2 h₄, (div_lt_iff₀ h2).2 h₅⟩

/-! ### The grid of a ratio -/

namespace Ratio

theorem num_ne_zero_of_steps {u : ℚ} {g : Int} (hru : r.toRat = u * 2 ^ g) (hu : 0 < u) :
    r.num ≠ 0 := by
  apply num_ne_zero
  rw [hru]
  exact mul_pos hu (zpow_pos two_pos g)

/-- The grid of a ratio is the one on which it takes 53 bits, or the bottom one. -/
theorem gridExponent_of_steps {u : ℚ} {g : Int} (hru : r.toRat = u * 2 ^ g) (hu : 0 < u)
    (hg : leastExponent ≤ g) (hlt : u < 2 ^ 53) (hle : g = leastExponent ∨ 2 ^ 52 ≤ u) :
    r.gridExponent = g := by
  have h2 : (0 : ℚ) < 2 ^ g := zpow_pos two_pos g
  have hnum := num_ne_zero_of_steps hru hu
  have hup : r.binaryExponent < 53 + g := by
    rw [binaryExponent_lt_iff hnum, hru, zpow_add₀ two_ne_zero]
    exact mul_lt_mul_of_pos_right (by exact_mod_cast hlt) h2
  rw [gridExponent]
  change max (r.binaryExponent - 52) leastExponent = g
  rcases hle with rfl | hle
  · omega
  · have hdown : 52 + g ≤ r.binaryExponent := by
      rw [le_binaryExponent_iff hnum, hru, zpow_add₀ two_ne_zero]
      exact mul_le_mul_of_nonneg_right (by exact_mod_cast hle) h2.le
    omega

theorem nearestBits_eq {g : Int} {n : Nat} (hr : r.num ≠ 0) (hg : r.gridExponent = g)
    (hn : (r.mulTwoPow (-g)).round .toEven = n) :
    r.nearestBits = min ((g - leastExponent).toNat * twoPow fractionBits + n) infinityBits := by
  rw [nearestBits, if_neg hr]
  dsimp only
  rw [hg, hn]

end Ratio

theorem Dyadic.Canonical.mantissa_bounds (hc : d.Canonical) (hm : 0 < d.mantissa) :
    (1 : ℚ) ≤ d.mantissa ∧ (d.mantissa : ℚ) + 1 ≤ 2 ^ 53 := by
  constructor
  · exact_mod_cast hm
  · exact_mod_cast hc.mantissa_lt

theorem Dyadic.Canonical.pattern_lt (hc : d.Canonical) : d.pattern < infinityBits := by
  obtain ⟨h₁, h₂, h₃, -⟩ := hc
  have h52 : twoPow fractionBits = 2 ^ 52 := rfl
  have hleast : leastExponent = -1074 := rfl
  rw [Dyadic.pattern, infinityBits, h52, hleast]
  rw [hleast] at h₂
  omega

namespace Ratio

theorem toRat_mulTwoPow_neg {u : ℚ} {g : Int} (h : r.toRat = u * 2 ^ g) :
    (r.mulTwoPow (-g)).toRat = u := by
  rw [toRat_mulTwoPow, h, mul_assoc, ← zpow_add₀ two_ne_zero, add_neg_cancel, zpow_zero, mul_one]

/-- A ratio of the interval of a double, on the grid of the double, rounds to its mantissa. -/
theorem round_of_steps {u : ℚ} (hru : r.toRat = u * 2 ^ d.exponent)
    (hlow : d.mantissa - reach d ≤ u) (hhigh : u ≤ d.mantissa + 1 / 2)
    (hodd : d.mantissa % 2 ≠ 0 → d.mantissa - reach d < u ∧ u < d.mantissa + 1 / 2) :
    (r.mulTwoPow (-d.exponent)).round .toEven = d.mantissa := by
  have hreach := reach_le d
  have hu := toRat_mulTwoPow_neg hru
  by_cases he : d.mantissa % 2 = 0
  · refine round_toEven_eq_of_abs_le _ he ?_
    rw [hu, abs_le]
    constructor <;> linarith
  · obtain ⟨h₁, h₂⟩ := hodd he
    refine round_eq_of_abs_lt _ _ ?_
    rw [hu, abs_lt]
    constructor <;> linarith

/-- Just below a power of two the grid is finer, and the mantissa rounds up to the power. -/
theorem nearestBits_below_binade {u : ℚ} (hc : d.Canonical) (hru : r.toRat = u * 2 ^ d.exponent)
    (hexp : leastExponent < d.exponent) (hlow : d.mantissa - reach d ≤ u) (hu : u < 2 ^ 52) :
    r.nearestBits = d.pattern := by
  have hm52 : d.mantissa = 2 ^ 52 := by
    have hge := hc.hidden.resolve_left hexp.ne'
    have hle : (d.mantissa : ℚ) < 2 ^ 52 + 1 := by
      have := reach_le d
      linarith
    have : d.mantissa < 2 ^ 52 + 1 := by exact_mod_cast hle
    omega
  have hu' : 2 ^ 52 - 1 / 4 ≤ u := by
    rw [reach, if_pos ⟨hm52, hexp⟩, hm52] at hlow
    exact_mod_cast hlow
  have hru' : r.toRat = 2 * u * 2 ^ (d.exponent - 1) := by
    rw [hru, zpow_sub_one₀ two_ne_zero]
    ring
  have hg : r.gridExponent = d.exponent - 1 :=
    gridExponent_of_steps hru' (by linarith) (by omega) (by linarith) (.inr (by linarith))
  have hround : (r.mulTwoPow (-(d.exponent - 1))).round .toEven = 2 ^ 53 := by
    refine round_toEven_eq_of_abs_le _ (by norm_num) ?_
    rw [toRat_mulTwoPow_neg hru', abs_le]
    constructor <;> push_cast <;> linarith
  have hcarry : (d.exponent - 1 - leastExponent).toNat * twoPow fractionBits + 2 ^ 53 =
      d.pattern := by
    have h52 : twoPow fractionBits = 2 ^ 52 := rfl
    rw [Dyadic.pattern, h52, hm52]
    omega
  rw [nearestBits_eq (num_ne_zero_of_steps hru (by linarith)) hg hround, hcarry]
  exact Nat.min_eq_left hc.pattern_lt.le

theorem nearestBits_of_contains (hc : d.Canonical) (hm : 0 < d.mantissa)
    (h : (ofDyadic d).contains r = true) : r.nearestBits = d.pattern := by
  obtain ⟨u, hru, hlow, hhigh, hodd⟩ := steps_of_contains hm h
  by_cases hgrid : d.exponent = leastExponent ∨ 2 ^ 52 ≤ u
  · have hreach := reach_le d
    obtain ⟨hm1, hm53⟩ := hc.mantissa_bounds hm
    have hu : 0 < u := by linarith
    have hg : r.gridExponent = d.exponent :=
      gridExponent_of_steps hru hu hc.least_le (by linarith) hgrid
    rw [nearestBits_eq (num_ne_zero_of_steps hru hu) hg (round_of_steps hru hlow hhigh hodd)]
    exact Nat.min_eq_left hc.pattern_lt.le
  · rw [not_or, not_le] at hgrid
    have hexp : leastExponent < d.exponent := lt_of_le_of_ne hc.least_le (Ne.symm hgrid.1)
    exact nearestBits_below_binade hc hru hexp hlow hgrid.2

end Ratio

/-- A ratio of the rounding interval of a double, with its sign, reads back as the double. -/
theorem Ratio.toFloat_of_contains {x : Float} (hx : Dyadic.ofFloat? x = some d)
    (hm : 0 < d.mantissa) (h : (ofDyadic d).contains r = true) : r.toFloat d.negative = x := by
  rw [toFloat, nearestBits_of_contains (Dyadic.canonical_of_ofFloat? hx) hm h]
  exact Dyadic.floatOfMagnitude_pattern hx

end PocketCalculator
