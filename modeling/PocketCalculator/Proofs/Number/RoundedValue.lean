import PocketCalculator.Proofs.Number.Rounding

/-! # Rounding as a function of numbers

The number nearest to a ratio depends on nothing but the number that the ratio stands for
(`Ratio.nearest_congr`), so rounding is a function `nearestTo` of rational numbers.  Differences
need no rounding where the two numbers are close (`IsRepresentable.sub`), or where a multiple of a
unit is taken off that leaves 53 bits (`IsRepresentable.sub_mul`). -/

namespace PocketCalculator

/-! ### The nearest number of equal ratios -/

theorem roundDiv_mul_right (tie : Tie) (num den : ℕ) {k : ℕ} (hk : 0 < k) :
    roundDiv tie (num * k) (den * k) = roundDiv tie num den := by
  have hlt (a b : ℕ) : 2 * (a * k) < b * k ↔ 2 * a < b := by
    rw [← Nat.mul_assoc]
    exact Nat.mul_lt_mul_right hk
  have hgt (a b : ℕ) : a * k < 2 * (b * k) ↔ a < 2 * b := by
    rw [← Nat.mul_assoc]
    exact Nat.mul_lt_mul_right hk
  unfold roundDiv
  simp only [Nat.mul_div_mul_right _ _ hk, Nat.mul_mod_mul_right, hlt, hgt]

namespace Ratio

variable {r s : Ratio}

theorem round_congr (tie : Tie) (h : r.toRat = s.toRat) : r.round tie = s.round tie := by
  have hcross : r.num * s.den = s.num * r.den := by
    rw [toRat, toRat, div_eq_div_iff r.den_cast_pos.ne' s.den_cast_pos.ne'] at h
    exact_mod_cast h
  rw [round, round, ← roundDiv_mul_right tie r.num r.den s.den_pos,
    ← roundDiv_mul_right tie s.num s.den r.den_pos, hcross, Nat.mul_comm r.den]

theorem gridExponent_congr (hr : r.num ≠ 0) (h : r.toRat = s.toRat) :
    r.gridExponent = s.gridExponent := by
  have hs : s.num ≠ 0 := by rwa [Ne, num_eq_zero_iff, ← h, ← num_eq_zero_iff]
  have hexponent : r.binaryExponent = s.binaryExponent := by
    apply le_antisymm
    · rw [le_binaryExponent_iff hs, ← h]
      exact (binaryExponent_spec hr).1
    · rw [le_binaryExponent_iff hr, h]
      exact (binaryExponent_spec hs).1
  rw [gridExponent, gridExponent, hexponent]

theorem nearest_congr (h : r.toRat = s.toRat) : r.nearest = s.nearest := by
  by_cases hr : r.num = 0
  · rw [nearest_of_num_eq_zero hr, nearest_of_num_eq_zero]
    rwa [num_eq_zero_iff, ← h, ← num_eq_zero_iff]
  · rw [nearest, nearest, units, units, gridExponent_congr hr h,
      round_congr .toEven (s := s.mulTwoPow (-s.gridExponent))]
    rw [toRat_mulTwoPow, toRat_mulTwoPow, h]

/-- A ratio for a number that is not negative. -/
def ofRat (a : ℚ) : Ratio :=
  ⟨a.num.toNat, a.den, a.den_pos⟩

theorem toRat_ofRat {a : ℚ} (h : 0 ≤ a) : (ofRat a).toRat = a := by
  have hnum : ((a.num.toNat : ℤ) : ℚ) = a.num := by rw [Int.toNat_of_nonneg (Rat.num_nonneg.2 h)]
  rw [toRat, ofRat, ← Int.cast_natCast, hnum]
  exact a.num_div_den

end Ratio

/-- The number that the double nearest to a number stands for. -/
def nearestTo (a : ℚ) : ℚ :=
  (Ratio.ofRat a).nearest

theorem Ratio.nearest_eq_nearestTo (r : Ratio) : r.nearest = nearestTo r.toRat :=
  nearest_congr (toRat_ofRat r.toRat_nonneg).symm

section nearestTo

variable {a b : ℚ}

theorem nearestTo_nonneg (a : ℚ) : 0 ≤ nearestTo a :=
  Ratio.nearest_nonneg _

theorem nearestTo_le (ha : 0 ≤ a) (hb : IsRepresentable b) (h : a ≤ b) : nearestTo a ≤ b :=
  Ratio.nearest_le hb (by rwa [Ratio.toRat_ofRat ha])

theorem le_nearestTo (hb : IsRepresentable b) (h : b ≤ a) : b ≤ nearestTo a :=
  Ratio.le_nearest hb (by rwa [Ratio.toRat_ofRat (hb.nonneg.trans h)])

theorem nearestTo_eq (ha : IsRepresentable a) : nearestTo a = a :=
  Ratio.nearest_eq ha (Ratio.toRat_ofRat ha.nonneg)

theorem nearestTo_lt_infinity (ha : 0 ≤ a) (h : a ≤ 2 ^ 53) : nearestTo a < 2 ^ (1024 : ℤ) :=
  Ratio.nearest_lt_of_le (by rwa [Ratio.toRat_ofRat ha])

theorem abs_nearestTo_sub_le_self (ha : 0 ≤ a) :
    |nearestTo a - a| ≤ a / 2 ^ 53 + 1 / 2 ^ 1075 := by
  have h := (Ratio.ofRat a).abs_nearest_sub_le
  rwa [Ratio.toRat_ofRat ha] at h

theorem isRepresentable_zero : IsRepresentable 0 := by
  exact_mod_cast isRepresentable_natCast (Nat.zero_le (2 ^ 53))

theorem isRepresentable_nearestTo (a : ℚ) : IsRepresentable (nearestTo a) := by
  by_cases h : (Ratio.ofRat a).num = 0
  · rw [nearestTo, Ratio.nearest_of_num_eq_zero h]
    exact isRepresentable_zero
  · exact Ratio.isRepresentable_nearest h

/-- Rounding is off by half a unit at most, for any unit in which 53 bits are enough. -/
theorem abs_nearestTo_sub_le {g : ℤ} (ha : 0 ≤ a) (hg : leastExponent ≤ g)
    (h : a < 2 ^ 53 * 2 ^ g) : |nearestTo a - a| ≤ 1 / 2 * 2 ^ g := by
  have hr := Ratio.toRat_ofRat ha
  have := @Ratio.abs_nearest_sub_le_of_lt (Ratio.ofRat a) g hg (by rwa [hr])
  rwa [hr] at this

theorem nearestTo_le_of_lt {n : ℕ} {g : ℤ} (hg : leastExponent ≤ g) (hlow : 2 ^ 52 ≤ n)
    (hhigh : n < 2 ^ 53) (ha : 0 ≤ a) (h : a < n * 2 ^ g + 1 / 2 * 2 ^ g) :
    nearestTo a ≤ n * 2 ^ g := by
  have hpos : (0 : ℚ) < 2 ^ g := zpow_pos two_pos _
  have hn : (n : ℚ) + 1 ≤ 2 ^ 53 := by exact_mod_cast hhigh
  have hbelow : a < 2 ^ 53 * 2 ^ g := by
    have := mul_le_mul_of_nonneg_right hn hpos.le
    linarith
  obtain ⟨-, hnear⟩ := abs_le.1 (abs_nearestTo_sub_le ha hg hbelow)
  obtain ⟨m, hm⟩ | ⟨-, hle⟩ := @IsRepresentable.multiple_or_le _ (isRepresentable_nearestTo a) g
  · rw [hm] at hnear ⊢
    have hlt : (m : ℚ) * 2 ^ g < (n + 1) * 2 ^ g := by linarith
    have hmn : m < n + 1 := by exact_mod_cast lt_of_mul_lt_mul_right hlt hpos.le
    exact mul_le_mul_of_nonneg_right (by exact_mod_cast Nat.lt_succ_iff.1 hmn) hpos.le
  · exact hle.trans (mul_le_mul_of_nonneg_right (by exact_mod_cast hlow) hpos.le)

/-- A number less than half a unit below one with all its bits is not rounded below it; below a
power of two the unit is the finer one. -/
theorem le_nearestTo_of_lt {n : ℕ} {g : ℤ} (hg : leastExponent ≤ g) (hlow : 2 ^ 52 < n)
    (hhigh : n ≤ 2 ^ 53) (h : n * 2 ^ g - 1 / 2 * 2 ^ g < a) : n * 2 ^ g ≤ nearestTo a := by
  have hpos : (0 : ℚ) < 2 ^ g := zpow_pos two_pos _
  have hn : (n : ℚ) ≤ 2 ^ 53 := by exact_mod_cast hhigh
  have hone : (1 : ℚ) ≤ n := by exact_mod_cast (by omega : 1 ≤ n)
  have ha : 0 ≤ a := by
    have := mul_le_mul_of_nonneg_right hone hpos.le
    linarith
  by_contra hlt
  rw [not_le] at hlt
  have hle := (isRepresentable_nearestTo a).le_of_lt_mul hlow hlt
  have hself : IsRepresentable ((n : ℚ) * 2 ^ g) := ⟨n, g, hhigh, hg, rfl⟩
  rcases le_or_gt ((n : ℚ) * 2 ^ g) a with hna | hna
  · exact absurd (le_nearestTo hself hna) (not_le.2 hlt)
  · have hbelow : a < 2 ^ 53 * 2 ^ g :=
      hna.trans_le (mul_le_mul_of_nonneg_right hn hpos.le)
    obtain ⟨hnear, -⟩ := abs_le.1 (abs_nearestTo_sub_le ha hg hbelow)
    linarith

end nearestTo

/-! ### Differences -/

namespace IsRepresentable

variable {a b : ℚ}

theorem two_zpow_eq_mul {g j : ℤ} (h : g ≤ j) : (2 : ℚ) ^ j = (2 ^ (j - g).toNat : ℕ) * 2 ^ g := by
  rw [Nat.cast_pow, Nat.cast_two, ← zpow_natCast, ← zpow_add₀ two_ne_zero]
  congr 1
  omega

/-- Multiples of a unit that leaves 53 bits can be taken off exactly. -/
theorem sub_mul (ha : IsRepresentable a) {c : ℕ} {j : ℤ} (hj : leastExponent ≤ j)
    (hlt : a < 2 ^ 53 * 2 ^ j) (hle : c * 2 ^ j ≤ a) : IsRepresentable (a - c * 2 ^ j) := by
  obtain ⟨n, g, hn, hg, rfl⟩ := ha
  rcases le_total g j with hgj | hgj
  · have hpos : (0 : ℚ) < 2 ^ g := zpow_pos two_pos _
    rw [two_zpow_eq_mul hgj, ← mul_assoc] at hle ⊢
    have hcn : c * 2 ^ (j - g).toNat ≤ n := by exact_mod_cast le_of_mul_le_mul_right hle hpos
    refine ⟨n - c * 2 ^ (j - g).toNat, g, (Nat.sub_le _ _).trans hn, hg, ?_⟩
    rw [Nat.cast_sub hcn, Nat.cast_mul]
    ring
  · have hpos : (0 : ℚ) < 2 ^ j := zpow_pos two_pos _
    rw [two_zpow_eq_mul hgj, ← mul_assoc] at hlt hle ⊢
    have hcn : c ≤ n * 2 ^ (g - j).toNat := by exact_mod_cast le_of_mul_le_mul_right hle hpos
    have hn' : n * 2 ^ (g - j).toNat < 2 ^ 53 := by
      exact_mod_cast lt_of_mul_lt_mul_right hlt hpos.le
    refine ⟨n * 2 ^ (g - j).toNat - c, j, (Nat.sub_le _ _).trans hn'.le, hj, ?_⟩
    rw [Nat.cast_sub hcn, Nat.cast_mul]
    ring

theorem sub_natCast (ha : IsRepresentable a) {c : ℕ} (hlt : a < 2 ^ 53) (hle : c ≤ a) :
    IsRepresentable (a - c) := by
  have h := ha.sub_mul (c := c) (j := 0) (by decide)
  rw [zpow_zero, mul_one, mul_one] at h
  exact h hlt hle

/-- The difference of two numbers of which neither is more than twice the other is exact. -/
theorem sub (ha : IsRepresentable a) (hb : IsRepresentable b) (hba : b ≤ a) (hab : a ≤ 2 * b) :
    IsRepresentable (a - b) := by
  obtain ⟨n, g, hn, hg, rfl⟩ := ha
  obtain ⟨m, h, hm, hh, rfl⟩ := hb
  rcases le_total g h with hgh | hgh
  · have hpos : (0 : ℚ) < 2 ^ g := zpow_pos two_pos _
    rw [two_zpow_eq_mul hgh, ← mul_assoc] at hba ⊢
    have hmn : m * 2 ^ (h - g).toNat ≤ n := by exact_mod_cast le_of_mul_le_mul_right hba hpos
    refine ⟨n - m * 2 ^ (h - g).toNat, g, (Nat.sub_le _ _).trans hn, hg, ?_⟩
    rw [Nat.cast_sub hmn, Nat.cast_mul]
    ring
  · have hpos : (0 : ℚ) < 2 ^ h := zpow_pos two_pos _
    rw [two_zpow_eq_mul hgh, ← mul_assoc] at hba hab ⊢
    rw [← mul_assoc] at hab
    have hmn : m ≤ n * 2 ^ (g - h).toNat := by exact_mod_cast le_of_mul_le_mul_right hba hpos
    have hnm : n * 2 ^ (g - h).toNat ≤ 2 * m := by exact_mod_cast le_of_mul_le_mul_right hab hpos
    refine ⟨n * 2 ^ (g - h).toNat - m, h, by omega, hh, ?_⟩
    rw [Nat.cast_sub hmn, Nat.cast_mul]
    ring

end IsRepresentable
end PocketCalculator
