import PocketCalculator.Format.Sexagesimal
import PocketCalculator.Proofs.Format.Trimmed
import PocketCalculator.Proofs.Number.FloorDivision

/-! # Hundredths

A double is rounded to the double nearest to a whole number of hundredths (`Holds.roundToCents`), and
shown with two places as the plain numeral of a whole number of hundredths (`exists_centsText`).  The
two roundings do not agree, but what the first one leaves below a minute the second one does not
bring up to it: `hundredths_lt`. -/

namespace PocketCalculator

variable {x : Float} {a : ℚ} {c n : ℕ}

/-! ### The double nearest to hundredths -/

theorem nearestTo_hundredths (ha : IsRepresentable a) (hc : |(c : ℚ) - 100 * a| ≤ 1 / 2) :
    nearestTo (c / 100) = a ∨ a < 2 ^ 53 ∧ nearestTo (c / 100) ≤ 2 ^ 53 := by
  obtain ⟨hlow, hhigh⟩ := abs_le.1 hc
  obtain ⟨n, rfl⟩ | hlt := ha.exists_natCast_or_lt
  · have hle : c < 100 * n + 1 := by exact_mod_cast (by linarith : (c : ℚ) < 100 * n + 1)
    have hge : 100 * n < c + 1 := by exact_mod_cast (by linarith : (100 : ℚ) * n < c + 1)
    have hcn : (c : ℚ) / 100 = n := by
      rw [show c = 100 * n by omega, Nat.cast_mul, Nat.cast_ofNat]
      ring
    exact .inl (by rw [hcn, nearestTo_eq ha])
  · have hle : c < 100 * 2 ^ 53 + 1 := by
      exact_mod_cast (by linarith : (c : ℚ) < 100 * 2 ^ 53 + 1)
    have hle : (c : ℚ) ≤ 100 * 2 ^ 53 := by exact_mod_cast Nat.lt_succ_iff.1 hle
    refine .inr ⟨hlt, ?_⟩
    exact_mod_cast nearestTo_le (by positivity) (isRepresentable_natCast le_rfl)
      (by push_cast; linarith)

/-- A double is rounded to the double nearest to a whole number of hundredths. -/
theorem Holds.roundToCents (hx : Holds x a) :
    ∃ c : ℕ, |(c : ℚ) - 100 * a| ≤ 1 / 2 ∧ Holds (roundToCents x) (nearestTo (c / 100)) := by
  obtain ⟨d, hd, hneg, ha⟩ := id hx
  have hc := (d.magnitude.mulTenPow 2).abs_sub_round_le .toEven
  rw [Ratio.toRat_mulTenPow, ha, abs_sub_comm] at hc
  have hcents : PocketCalculator.roundToCents x =
      Decimal.toFloat ⟨false, (d.magnitude.mulTenPow 2).round .toEven, -2⟩ := by
    rw [PocketCalculator.roundToCents, hd, ← hneg]
    rfl
  rw [hcents]
  generalize (d.magnitude.mulTenPow 2).round .toEven = c at hc
  norm_num [mul_comm a] at hc
  refine ⟨c, hc, ?_⟩
  rcases Nat.eq_zero_or_pos c with rfl | hpos
  · rw [Nat.cast_zero, zero_div, nearestTo_eq isRepresentable_zero]
    exact holds_zero
  · have hpos : (1 : ℚ) ≤ c := by exact_mod_cast hpos
    have hvalue : (Decimal.magnitude ⟨false, c, -2⟩).toRat = c / 100 := by
      rw [Decimal.toRat_magnitude, zpow_neg, ← div_eq_mul_inv]
      norm_num
    have hlt : nearestTo (c / 100) < 2 ^ (1024 : ℤ) := by
      obtain heq | ⟨-, hle⟩ := nearestTo_hundredths hx.isRepresentable hc
      · rw [heq]
        exact hx.lt_infinity
      · exact hle.trans_lt (natCast_lt_infinity le_rfl)
    have hlow : (10 : ℚ) ^ (-400 : ℤ) < c / 100 := by
      calc (10 : ℚ) ^ (-400 : ℤ) < 10 ^ (-2 : ℤ) := zpow_lt_zpow_right₀ (by norm_num) (by norm_num)
        _ = 1 / 100 := by norm_num
        _ ≤ c / 100 := div_le_div_of_nonneg_right hpos (by norm_num)
    have hhigh : (c : ℚ) / 100 < 10 ^ (400 : ℤ) := by
      have hbig : (2 : ℚ) ^ (1075 : ℤ) < 10 ^ (400 : ℤ) := by exact_mod_cast two_pow_lt_ten_pow
      have hdouble : (2 : ℚ) ^ (1024 : ℤ) * 2 ≤ 2 ^ (1075 : ℤ) := by
        rw [← zpow_add_one₀ two_ne_zero]
        exact zpow_le_zpow_right₀ one_le_two (by norm_num)
      have hone : (1 : ℚ) ≤ 2 ^ (1024 : ℤ) := one_le_zpow₀ one_le_two (by norm_num)
      have hinfinity := hx.lt_infinity
      have hnear := (abs_le.1 hc).2
      generalize (10 : ℚ) ^ (400 : ℤ) = big at hbig ⊢
      generalize (2 : ℚ) ^ (1075 : ℤ) = middle at hbig hdouble
      generalize (2 : ℚ) ^ (1024 : ℤ) = infinity at hdouble hone hinfinity
      linarith
    rw [Decimal.toFloat_eq (by rwa [hvalue]) (by rwa [hvalue])]
    exact holds_toFloat hvalue hlt

/-- What is left of hundredths beside a whole number, if it is less than a minute, is not less by
half a hundredth only. -/
theorem hundredths_lt (hn : n ≤ nearestTo (c / 100)) (h : nearestTo (c / 100) < n + 60) :
    nearestTo (c / 100) < n + 60 - 1 / 200 := by
  have hc : (0 : ℚ) ≤ c / 100 := by positivity
  obtain ⟨m, hm⟩ | ⟨-, hle⟩ := @IsRepresentable.multiple_or_le _
    (isRepresentable_nearestTo (c / 100)) (-7)
  · -- a large double is a multiple of 1/128
    rw [hm] at h ⊢
    norm_num at h ⊢
    have hlt : m < 128 * n + 7680 := by
      exact_mod_cast (by linarith : (m : ℚ) < 128 * n + 7680)
    have hlt : (m : ℚ) + 1 ≤ 128 * n + 7680 := by exact_mod_cast hlt
    linarith
  · -- a small one is near the hundredths, which are less by one at least
    have hbelow : (c : ℚ) / 100 < n + 60 := by
      by_contra hge
      have hwhole : IsRepresentable ((n + 60 : ℕ) : ℚ) := by
        refine isRepresentable_natCast ?_
        norm_num at hle
        exact_mod_cast (by linarith : (n : ℚ) + 60 ≤ 2 ^ 53)
      have := le_nearestTo hwhole (a := c / 100) (by push_cast; exact not_lt.1 hge)
      push_cast at this
      linarith
    have hsmall : (c : ℚ) / 100 < 2 ^ 53 * 2 ^ (-7 : ℤ) := by
      by_contra hge
      have := le_nearestTo (isRepresentable_natCast (n := 2 ^ 46) (by norm_num)) (a := c / 100)
        (by norm_num at hge ⊢; exact hge)
      norm_num at this hle
      linarith
    obtain ⟨-, hnear⟩ := abs_le.1 (abs_nearestTo_sub_le hc (by decide) hsmall)
    have hlt : c + 1 ≤ 100 * n + 6000 := by
      exact_mod_cast (by linarith : (c : ℚ) < 100 * n + 6000)
    have hlt : (c : ℚ) + 1 ≤ 100 * n + 6000 := by exact_mod_cast hlt
    norm_num at hnear
    linarith

/-- One hundredth or more is more than half a hundredth as a double, too. -/
theorem lt_nearestTo_hundredths (hc : c ≠ 0) : 1 / 200 < nearestTo (c / 100) := by
  have hone : (1 : ℚ) ≤ c := by exact_mod_cast Nat.one_le_iff_ne_zero.2 hc
  have hlow : IsRepresentable ((1 : ℕ) * (2 : ℚ) ^ (-7 : ℤ)) := ⟨1, -7, by norm_num, by decide, rfl⟩
  have := le_nearestTo hlow (a := c / 100) (by norm_num; linarith)
  norm_num at this
  linarith

/-! ### The text -/

/-- Two places, or fewer, are those of the nearest whole number of hundredths. -/
theorem exists_centsText (hx : Holds x a) : ∃ (s : PlainNumeral) (z : ℕ), s.text = centsText x ∧
    s.value = z / 100 ∧ |(z : ℚ) - 100 * a| ≤ 1 / 2 := by
  obtain ⟨d, hd, hneg, rfl⟩ := hx
  have hz := (d.magnitude.mulTenPow 2).abs_sub_round_le .toEven
  rw [Ratio.toRat_mulTenPow, abs_sub_comm] at hz
  obtain ⟨n, hn, -, -, hvalue⟩ := (d.toPlaces 2).exists_plainNumeral
  obtain ⟨s, hs, hsvalue⟩ := n.exists_trimZeros
  refine ⟨s, (d.magnitude.mulTenPow 2).round .toEven, ?_, ?_, ?_⟩
  · rw [hs, hn, centsText, hd]
  · rw [hsvalue, hvalue, Decimal.value_eq, Dyadic.toPlaces, Decimal.ofRatio, hneg]
    norm_num [signed, div_eq_mul_inv]
  · norm_num at hz ⊢
    rwa [mul_comm 100]

/-- Seconds that are not within half a hundredth of a minute are shown below a minute, and as zero
within half a hundredth only. -/
theorem exists_secondsText (hx : Holds x a) (h : a < 60 - 1 / 200) :
    ∃ s : PlainNumeral, s.text = centsText x ∧ 0 ≤ s.value ∧ s.value < 60 ∧
      (a = 0 → s.value = 0) ∧ (1 / 200 < a → s.value ≠ 0) := by
  obtain ⟨s, z, htext, hvalue, hz⟩ := exists_centsText hx
  obtain ⟨hlow, hhigh⟩ := abs_le.1 hz
  have hz6000 : z < 6000 := by exact_mod_cast (by linarith : (z : ℚ) < 6000)
  have hz6000 : (z : ℚ) < 6000 := by exact_mod_cast hz6000
  refine ⟨s, htext, ?_⟩
  rw [hvalue]
  refine ⟨by positivity, by linarith, ?_, fun hpos hzero => by linarith⟩
  rintro rfl
  have hz0 : z < 1 := by exact_mod_cast (by linarith : (z : ℚ) < 1)
  rw [Nat.lt_one_iff.1 hz0, Nat.cast_zero, zero_div]

end PocketCalculator
