import PocketCalculator.Number.Significant
import PocketCalculator.Proofs.Number.Rounding

/-! # Rounding to significant digits

Rounding to `count` significant digits keeps a number between two powers of ten between them
(`Ratio.zpow_le_rounded`, `Ratio.rounded_le_zpow`), and moves it by half a unit of the last digit at
most (`Ratio.abs_rounded_sub_le`).  A power of ten is reached from half a unit below it on:
`Ratio.rounded_lt_iff`. -/

namespace PocketCalculator

theorem effectiveCount_pos (count : Nat) : 0 < effectiveCount count :=
  Nat.one_pos.trans_le (le_max_left 1 _)

namespace Ratio

/-! ### Rounding up to an even number -/

theorem round_toEven_lt_iff {r : Ratio} {n : Nat} (hn : n % 2 = 0) :
    r.round .toEven < n ↔ r.toRat < n - 1 / 2 := by
  constructor
  · intro hlt
    by_contra hge
    have hge := not_lt.1 hge
    rcases le_or_gt r.toRat (n + 1 / 2) with hnear | hfar
    · have := round_toEven_eq_of_abs_le r hn (abs_le.2 ⟨by linarith, by linarith⟩)
      omega
    · have := @le_round r n .toEven (by linarith)
      omega
  · intro hlt
    have hround := (abs_le.1 (r.abs_sub_round_le .toEven)).1
    exact_mod_cast (by linarith : (r.round .toEven : ℚ) < n)

/-! ### The rounded number -/

variable {r : Ratio} {count : Nat}

/-- The exponent of the last of `count` significant digits. -/
def lastExponent (r : Ratio) (count : Nat) : ℤ :=
  r.decimalExponent - count + 1

/-- A ratio rounded to `count` significant digits. -/
def rounded (r : Ratio) (count : Nat) : ℚ :=
  (r.significant count).magnitude.toRat

theorem toRat_lastUnits (r : Ratio) (count : Nat) :
    (r.mulTenPow (-r.lastExponent count)).toRat * 10 ^ r.lastExponent count = r.toRat := by
  rw [toRat_mulTenPow, mul_assoc, ← zpow_add₀ (by norm_num), neg_add_cancel, zpow_zero, mul_one]

theorem rounded_eq (r : Ratio) (count : Nat) : r.rounded count =
    (r.mulTenPow (-r.lastExponent count)).round .toEven * 10 ^ r.lastExponent count := by
  rw [rounded, significant, Decimal.toRat_magnitude_normalize, Decimal.toRat_magnitude]
  rfl

/-- Rounding moves a number by half a unit of the last digit at most. -/
theorem abs_rounded_sub_le (r : Ratio) (count : Nat) :
    |r.rounded count - r.toRat| ≤ 1 / 2 * 10 ^ r.lastExponent count := by
  have h := @abs_round_mul_sub_le (r.mulTenPow (-r.lastExponent count))
    (10 ^ r.lastExponent count) (zpow_pos (by norm_num) _) .toEven
  rwa [r.toRat_lastUnits, ← rounded_eq] at h

theorem mul_le_rounded {n : ℕ} (h : n * 10 ^ r.lastExponent count ≤ r.toRat) :
    n * 10 ^ r.lastExponent count ≤ r.rounded count := by
  rw [rounded_eq]
  exact le_round_mul (zpow_pos (by norm_num) _) .toEven (by rwa [r.toRat_lastUnits])

theorem rounded_le_mul {n : ℕ} (h : r.toRat ≤ n * 10 ^ r.lastExponent count) :
    r.rounded count ≤ n * 10 ^ r.lastExponent count := by
  rw [rounded_eq]
  exact round_mul_le (zpow_pos (by norm_num) _) .toEven (by rwa [r.toRat_lastUnits])

theorem ten_zpow_eq_mul {b last : ℤ} (hb : last ≤ b) :
    (10 : ℚ) ^ b = (10 ^ (b - last).toNat : ℕ) * 10 ^ last := by
  rw [Nat.cast_pow, Nat.cast_ofNat, ← zpow_natCast, ← zpow_add₀ (by norm_num)]
  congr 1
  omega

theorem rounded_add_le {b : ℤ} (hb : r.lastExponent count ≤ b) (h : r.rounded count < 10 ^ b) :
    r.rounded count + 10 ^ r.lastExponent count ≤ 10 ^ b := by
  have hpos : (0 : ℚ) < 10 ^ r.lastExponent count := zpow_pos (by norm_num) _
  rw [rounded_eq, ten_zpow_eq_mul hb] at h ⊢
  have hlt := Nat.cast_lt.1 (lt_of_mul_lt_mul_right h hpos.le)
  rw [← add_one_mul]
  exact mul_le_mul_of_nonneg_right (by exact_mod_cast hlt) hpos.le

theorem lastExponent_le (r : Ratio) (hcount : 0 < count) :
    r.lastExponent count ≤ r.decimalExponent := by
  rw [lastExponent]
  omega

section bounds

variable {b : ℤ} (hr : r.num ≠ 0) (hcount : 0 < count)

include hr hcount

/-- Rounding does not go below a power of ten. -/
theorem zpow_le_rounded (h : 10 ^ b ≤ r.toRat) : 10 ^ b ≤ r.rounded count := by
  have hb : b ≤ r.decimalExponent := (le_decimalExponent_iff hr).2 h
  refine (zpow_le_zpow_right₀ (by norm_num) hb).trans ?_
  rw [ten_zpow_eq_mul (r.lastExponent_le hcount)]
  refine mul_le_rounded ?_
  rw [← ten_zpow_eq_mul (r.lastExponent_le hcount)]
  exact (decimalExponent_spec hr).1

/-- Rounding does not go above a power of ten. -/
theorem rounded_le_zpow (h : r.toRat ≤ 10 ^ b) : r.rounded count ≤ 10 ^ b := by
  have hb : r.decimalExponent ≤ b :=
    (zpow_le_zpow_iff_right₀ (by norm_num : (1 : ℚ) < 10)).1 ((decimalExponent_spec hr).1.trans h)
  have hlast := (r.lastExponent_le hcount).trans hb
  rw [ten_zpow_eq_mul hlast]
  refine rounded_le_mul ?_
  rw [← ten_zpow_eq_mul hlast]
  exact h

/-- A power of ten is reached from half a unit of the last digit below it on. -/
theorem rounded_lt_iff : r.rounded count < 10 ^ b ↔
    r.toRat < 10 ^ b * (1 - 1 / (2 * 10 ^ count)) := by
  have hten : (0 : ℚ) < 10 ^ b := zpow_pos (by norm_num) _
  have hcut : (1 : ℚ) / 10 < 1 - 1 / (2 * 10 ^ count) := by
    have : (10 : ℚ) ≤ 10 ^ count := le_self_pow₀ (by norm_num) (by omega)
    have : (1 : ℚ) / (2 * 10 ^ count) ≤ 1 / 20 :=
      one_div_le_one_div_of_le (by norm_num) (by linarith)
    linarith
  have hcut1 : (1 : ℚ) - 1 / (2 * 10 ^ count) < 1 := sub_lt_self _ (by positivity)
  obtain ⟨hlow, hhigh⟩ := decimalExponent_spec hr
  rcases lt_trichotomy (r.decimalExponent + 1) b with hlt | heq | hgt
  · -- the number is well below
    have hle : r.toRat < 10 ^ (b - 1) :=
      hhigh.trans_le (zpow_le_zpow_right₀ (by norm_num) (by omega))
    refine iff_of_true ((rounded_le_zpow hr hcount hle.le).trans_lt
      (zpow_lt_zpow_right₀ (by norm_num) (by omega))) (hle.trans ?_)
    rw [zpow_sub_one₀ (by norm_num), ← one_div]
    exact mul_lt_mul_of_pos_left hcut hten
  · -- the unit of the last digit is the power divided by `10 ^ count`
    subst heq
    have hunit : (10 : ℚ) ^ (r.decimalExponent + 1) =
        (10 ^ count : ℕ) * 10 ^ r.lastExponent count := by
      rw [ten_zpow_eq_mul ((r.lastExponent_le hcount).trans (by omega))]
      congr 3
      rw [lastExponent]
      omega
    have hpos : (0 : ℚ) < 10 ^ r.lastExponent count := zpow_pos (by norm_num) _
    have heven : 10 ^ count % 2 = 0 :=
      Nat.even_iff.1 ((by decide : Even 10).pow_of_ne_zero (by omega))
    have hcutoff : (10 : ℚ) ^ (r.decimalExponent + 1) * (1 - 1 / (2 * 10 ^ count)) =
        ((10 ^ count : ℕ) - 1 / 2) * 10 ^ r.lastExponent count := by
      rw [hunit]
      push_cast
      field_simp
    rw [hcutoff, rounded_eq, hunit, ← r.toRat_lastUnits count, mul_lt_mul_iff_left₀ hpos,
      mul_lt_mul_iff_left₀ hpos, ← round_toEven_lt_iff heven, Nat.cast_lt]
  · have hge : 10 ^ b ≤ r.toRat :=
      (zpow_le_zpow_right₀ (by norm_num) (by omega)).trans hlow
    refine iff_of_false (not_lt.2 (zpow_le_rounded hr hcount hge)) (not_lt.2 (le_trans ?_ hge))
    exact mul_le_of_le_one_right hten.le hcut1.le

end bounds

end Ratio
end PocketCalculator
