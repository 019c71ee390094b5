import PocketCalculator.Proofs.Number.Nearest

/-! # The shortest decimal reads back

The search for the shortest decimal always succeeds: with 17 digits the grid of decimals is finer
than the interval is wide, so one of the two neighbours of the double lies inside
(`Shortest.exists_onGrid?`).  What it finds lies in the interval (`Dyadic.contains_shortest`), and
every decimal of the interval is read as the double (`Decimal.toFloat_of_contains`), because its
leading digit is far from the two places where reading gives up. -/

namespace PocketCalculator

open RoundingInterval

/-! ### Values of decimals -/

namespace Decimal

theorem toRat_magnitude (c : Decimal) : c.magnitude.toRat = c.coefficient * 10 ^ c.exponent := by
  rw [magnitude, Ratio.toRat_mulTenPow, Ratio.toRat_ofNat]

theorem dropZeros_value (fuel c : Nat) (e : Int) :
    ((dropZeros fuel c e).1 : ℚ) * 10 ^ (dropZeros fuel c e).2 = c * 10 ^ e := by
  fun_induction dropZeros fuel c e with
  | case1 c e => rfl
  | case2 fuel c e h ih =>
      have hc : (c : ℚ) = (c / 10 : Nat) * 10 := by
        exact_mod_cast (Nat.div_mul_cancel (Nat.dvd_of_mod_eq_zero h)).symm
      rw [ih, hc, zpow_add_one₀ (by norm_num)]
      ring
  | case3 fuel c e h => rfl

theorem toRat_magnitude_normalize (c : Decimal) :
    c.normalize.magnitude.toRat = c.magnitude.toRat := by
  rw [toRat_magnitude, toRat_magnitude, normalize]
  split
  · rename_i h
    simp [h]
  · exact dropZeros_value _ _ _

theorem leadingExponent_spec {c : Decimal} (h : c.coefficient ≠ 0) :
    (10 : ℚ) ^ c.leadingExponent ≤ c.magnitude.toRat ∧
      c.magnitude.toRat < 10 ^ (c.leadingExponent + 1) := by
  have h10 : (0 : ℚ) < 10 ^ c.exponent := zpow_pos (by norm_num) _
  obtain ⟨h₁, h₂⟩ := Ratio.decimalLength_bounds h
  rw [toRat_magnitude, leadingExponent, add_assoc, zpow_add₀ (by norm_num), zpow_add₀ (by norm_num),
    mul_comm (c.coefficient : ℚ)]
  exact ⟨mul_le_mul_of_nonneg_left h₁ h10.le, mul_lt_mul_of_pos_left h₂ h10⟩

theorem leadingExponent_lt_iff {c : Decimal} (h : c.coefficient ≠ 0) {k : ℤ} :
    c.leadingExponent < k ↔ c.magnitude.toRat < 10 ^ k :=
  Ratio.lt_iff_of_zpow_bounds (by norm_num) (leadingExponent_spec h).1 (leadingExponent_spec h).2

end Decimal

/-! ### The search finds a decimal -/

namespace RoundingInterval

variable {i : RoundingInterval} {r s : Ratio}

theorem contains_congr (h : r.toRat = s.toRat) : i.contains r = i.contains s := by
  rw [Bool.eq_iff_iff, contains_iff, contains_iff, h]

theorem contains_of_lt (h₁ : i.lower.toRat < r.toRat) (h₂ : r.toRat < i.upper.toRat) :
    i.contains r = true :=
  (contains_iff i).2 ⟨h₁.le, h₂.le, fun _ => ⟨h₁, h₂⟩⟩

end RoundingInterval

theorem Dyadic.toRat_magnitude (d : Dyadic) : d.magnitude.toRat = d.mantissa * 2 ^ d.exponent := by
  rw [magnitude, Ratio.toRat_mulTwoPow, Ratio.toRat_ofNat]

namespace Shortest

variable {d : Dyadic}

/-- What a grid offers is one of its two decimals around the ratio, and lies in the interval. -/
theorem exists_of_onGrid? {i : RoundingInterval} {r : Ratio} {count : Nat} {c : Decimal}
    (h : onGrid? i r count = some c) :
    ∃ n, (n = (r.mulTenPow (-(r.decimalExponent - count + 1))).floor ∨
        n = (r.mulTenPow (-(r.decimalExponent - count + 1))).floor + 1) ∧
      c = Decimal.normalize ⟨false, n, r.decimalExponent - count + 1⟩ ∧
      i.contains c.magnitude = true := by
  unfold onGrid? at h
  dsimp only at h
  generalize r.decimalExponent - count + 1 = unit at h ⊢
  generalize (r.mulTenPow (-unit)).floor = low at h ⊢
  have pick {n : Nat} (hn : i.contains ((Ratio.ofNat n).mulTenPow unit) = true)
      (hlow : n = low ∨ n = low + 1)
      (hc : some (Decimal.normalize ⟨false, n, unit⟩) = some c) :
      ∃ n, (n = low ∨ n = low + 1) ∧ c = Decimal.normalize ⟨false, n, unit⟩ ∧
        i.contains c.magnitude = true := by
    refine ⟨n, hlow, (Option.some.inj hc).symm, ?_⟩
    rw [← Option.some.inj hc, contains_congr (Decimal.toRat_magnitude_normalize _)]
    exact hn
  split at h
  · cases h
  · rename_i h₁ h₂
    exact pick h₁ (.inl rfl) h
  · rename_i h₁ h₂
    exact pick h₂ (.inr rfl) h
  · rename_i h₁ h₂
    split at h
    · exact pick h₁ (.inl rfl) h
    · split at h
      · exact pick h₂ (.inr rfl) h
      · split at h
        · exact pick h₁ (.inl rfl) h
        · exact pick h₂ (.inr rfl) h

/-- A grid that offers nothing is no finer than the interval is wide: both of its decimals next to a
ratio inside lie outside. -/
theorem width_le_of_onGrid?_none {i : RoundingInterval} {r : Ratio} {count : Nat}
    (hlow : i.lower.toRat < r.toRat) (hupp : r.toRat < i.upper.toRat)
    (h : onGrid? i r count = none) :
    i.upper.toRat - i.lower.toRat ≤ 10 ^ (r.decimalExponent - count + 1) := by
  unfold onGrid? at h
  dsimp only at h
  generalize r.decimalExponent - count + 1 = unit at h ⊢
  have h10 : (0 : ℚ) < 10 ^ unit := zpow_pos (by norm_num) _
  have hscale : (r.mulTenPow (-unit)).toRat * 10 ^ unit = r.toRat := by
    rw [Ratio.toRat_mulTenPow, mul_assoc, ← zpow_add₀ (by norm_num), neg_add_cancel, zpow_zero,
      mul_one]
  have hfloor := mul_le_mul_of_nonneg_right (r.mulTenPow (-unit)).floor_le h10.le
  have hnext := mul_lt_mul_of_pos_right (r.mulTenPow (-unit)).lt_floor_add_one h10
  rw [hscale] at hfloor hnext
  have value (n : Nat) : ((Ratio.ofNat n).mulTenPow unit).toRat = n * 10 ^ unit := by
    rw [Ratio.toRat_mulTenPow, Ratio.toRat_ofNat]
  split at h
  · rename_i h₁ h₂
    have hle : (r.mulTenPow (-unit)).floor * 10 ^ unit ≤ i.lower.toRat := by
      by_contra hlt
      rw [contains_of_lt (by rw [value]; linarith) (by rw [value]; linarith)] at h₁
      cases h₁
    have hge : i.upper.toRat ≤ ((r.mulTenPow (-unit)).floor + 1) * 10 ^ unit := by
      by_contra hlt
      rw [contains_of_lt (by rw [value]; push_cast; linarith)
        (by rw [value]; push_cast; linarith)] at h₂
      cases h₂
    linarith
  · cases h
  · cases h
  · split at h
    · cases h
    · split at h
      · cases h
      · split at h <;> cases h

/-- Seventeen digits are more than the mantissa of a double can tell apart. -/
theorem mantissa_lt_width (hc : d.Canonical) :
    (d.mantissa : ℚ) < (1 / 2 + reach d) * 10 ^ 16 := by
  rw [reach]
  split
  · rename_i h
    rw [h.1, twoPow_eq, fractionBits]
    norm_num
  · have hm : (d.mantissa : ℚ) < 2 ^ 53 := by exact_mod_cast hc.mantissa_lt
    norm_num at hm ⊢
    linarith

theorem lower_lt_magnitude (hm : 0 < d.mantissa) :
    (ofDyadic d).lower.toRat < d.magnitude.toRat := by
  rw [toRat_lower hm, d.toRat_magnitude]
  exact mul_lt_mul_of_pos_right (by linarith [reach_pos d]) (zpow_pos two_pos _)

theorem magnitude_lt_upper : d.magnitude.toRat < (ofDyadic d).upper.toRat := by
  rw [toRat_upper, d.toRat_magnitude]
  exact mul_lt_mul_of_pos_right (by linarith) (zpow_pos two_pos _)

/-- The grid of 17 digits has a decimal in the interval of every double. -/
theorem exists_onGrid? (hc : d.Canonical) (hm : 0 < d.mantissa) :
    ∃ c, onGrid? (ofDyadic d) d.magnitude 17 = some c := by
  by_contra hnone
  have h := width_le_of_onGrid?_none (lower_lt_magnitude hm) magnitude_lt_upper
    (Option.eq_none_iff_forall_ne_some.2 fun c hs => hnone ⟨c, hs⟩)
  have h2 : (0 : ℚ) < 2 ^ d.exponent := zpow_pos two_pos _
  have hr : d.magnitude.num ≠ 0 := Ratio.num_ne_zero (by
    rw [d.toRat_magnitude]
    exact mul_pos (Nat.cast_pos.2 hm) h2)
  have hexp := (Ratio.decimalExponent_spec hr).1
  have hunit : (10 : ℚ) ^ (d.magnitude.decimalExponent - (17 : Nat) + 1) * 10 ^ 16 =
      10 ^ d.magnitude.decimalExponent := by
    rw [← zpow_natCast, ← zpow_add₀ (by norm_num)]
    congr 1
    push_cast
    ring
  rw [toRat_lower hm, toRat_upper] at h
  rw [d.toRat_magnitude, ← hunit] at hexp
  have hwidth := mul_lt_mul_of_pos_right (mantissa_lt_width hc) h2
  generalize (10 : ℚ) ^ (d.magnitude.decimalExponent - (17 : Nat) + 1) = unit at h hexp
  generalize (2 : ℚ) ^ d.exponent = step at h hexp hwidth
  linarith

theorem exists_onGrid?_eq (hc : d.Canonical) (hm : 0 < d.mantissa) :
    ∃ n, onGrid? (ofDyadic d) d.magnitude (n + 1) = some (ofPositive d) := by
  obtain ⟨c, hc17⟩ := exists_onGrid? hc hm
  unfold ofPositive
  dsimp only
  split
  · rename_i c' hfound
    obtain ⟨n, -, hn⟩ := List.exists_of_findSome?_eq_some hfound
    exact ⟨n, hn⟩
  · rename_i hnone
    have := List.findSome?_eq_none_iff.1 hnone 16 (List.mem_range.2 (by norm_num))
    rw [hc17] at this
    cases this

end Shortest

/-- The shortest decimal of a double lies in its rounding interval. -/
theorem Dyadic.contains_shortest {d : Dyadic} (hc : d.Canonical) (hm : 0 < d.mantissa) :
    (ofDyadic d).contains d.shortest.magnitude = true := by
  obtain ⟨n, hn⟩ := Shortest.exists_onGrid?_eq hc hm
  obtain ⟨-, -, -, hcontains⟩ := Shortest.exists_of_onGrid? hn
  rw [shortest, if_neg hm.ne']
  exact hcontains

/-! ### The range of the doubles -/

theorem two_pow_lt_ten_pow : (2 : ℚ) ^ 1075 < 10 ^ 400 := by
  exact_mod_cast (by decide +kernel : 2 ^ 1075 < 10 ^ 400)

namespace Dyadic.Canonical

variable {d : Dyadic} (hc : d.Canonical) (hm : 0 < d.mantissa)

include hc hm

theorem upper_le : (ofDyadic d).upper.toRat ≤ 2 ^ 1024 := by
  obtain ⟨hm1, hm53⟩ := hc.mantissa_bounds hm
  have hhigh : (2 : ℚ) ^ d.exponent ≤ 2 ^ (971 : ℤ) :=
    zpow_le_zpow_right₀ one_le_two hc.le_greatest
  calc (ofDyadic d).upper.toRat = (d.mantissa + 1 / 2) * 2 ^ d.exponent := toRat_upper
    _ ≤ 2 ^ 53 * 2 ^ (971 : ℤ) := by
          refine mul_le_mul ?_ hhigh (zpow_pos two_pos _).le ?_ <;> linarith
    _ = 2 ^ 1024 := by
          rw [show (971 : ℤ) = (971 : Nat) by norm_num, zpow_natCast, ← pow_add]

theorem upper_lt : (ofDyadic d).upper.toRat < 10 ^ (400 : ℤ) :=
  calc (ofDyadic d).upper.toRat ≤ 2 ^ 1024 := hc.upper_le hm
    _ < 2 ^ 1075 := pow_lt_pow_right₀ one_lt_two (by norm_num)
    _ < 10 ^ (400 : ℤ) := by exact_mod_cast two_pow_lt_ten_pow

theorem lt_lower : (10 : ℚ) ^ (-400 : ℤ) < (ofDyadic d).lower.toRat := by
  obtain ⟨hm1, -⟩ := hc.mantissa_bounds hm
  have hlow : (2 : ℚ) ^ (-1074 : ℤ) ≤ 2 ^ d.exponent := zpow_le_zpow_right₀ one_le_two hc.least_le
  calc (10 : ℚ) ^ (-400 : ℤ) < 2 ^ (-1075 : ℤ) := by
          rw [zpow_neg, zpow_neg]
          exact inv_strictAnti₀ (by positivity) (by exact_mod_cast two_pow_lt_ten_pow)
    _ = 1 / 2 * 2 ^ (-1074 : ℤ) := by
          rw [show (-1075 : ℤ) = -1074 - 1 by norm_num, zpow_sub_one₀ two_ne_zero]
          ring
    _ ≤ (d.mantissa - reach d) * 2 ^ d.exponent := by
          refine mul_le_mul ?_ hlow (zpow_pos two_pos _).le ?_ <;> linarith [reach_le d]
    _ = (ofDyadic d).lower.toRat := (toRat_lower hm).symm

end Dyadic.Canonical

/-! ### Reading a decimal of the interval -/

namespace Decimal

variable {d : Dyadic} {c : Decimal}

/-- The interval of a double is far from where reading gives up. -/
theorem magnitude_bounds (hc : d.Canonical) (hm : 0 < d.mantissa)
    (h : (ofDyadic d).contains c.magnitude = true) :
    (10 : ℚ) ^ (-400 : ℤ) < c.magnitude.toRat ∧ c.magnitude.toRat < 10 ^ (400 : ℤ) := by
  obtain ⟨h₁, h₂, -⟩ := (contains_iff _).1 h
  exact ⟨(hc.lt_lower hm).trans_le h₁, h₂.trans_lt (hc.upper_lt hm)⟩

theorem coefficient_ne_zero (h : 0 < c.magnitude.toRat) : c.coefficient ≠ 0 := by
  intro h0
  rw [toRat_magnitude, h0, Nat.cast_zero, zero_mul] at h
  exact lt_irrefl _ h

theorem coefficient_ne_zero_of_contains (hc : d.Canonical) (hm : 0 < d.mantissa)
    (h : (ofDyadic d).contains c.magnitude = true) : c.coefficient ≠ 0 :=
  coefficient_ne_zero ((zpow_pos (by norm_num) _).trans (magnitude_bounds hc hm h).1)

theorem toFloat_eq (hlow : (10 : ℚ) ^ (-400 : ℤ) < c.magnitude.toRat)
    (hhigh : c.magnitude.toRat < 10 ^ (400 : ℤ)) : c.toFloat = c.magnitude.toFloat c.negative := by
  have hc := coefficient_ne_zero ((zpow_pos (by norm_num) _).trans hlow)
  have hbig : c.leadingExponent < 400 := (leadingExponent_lt_iff hc).2 hhigh
  have hsmall : ¬c.leadingExponent < -400 := mt (leadingExponent_lt_iff hc).1 (not_lt.2 hlow.le)
  rw [toFloat, if_neg, if_neg (by omega)]
  simpa [hc] using hsmall

/-- Every decimal in the rounding interval of a double, with its sign, is read as the double. -/
theorem toFloat_of_contains {x : Float} (hx : Dyadic.ofFloat? x = some d) (hm : 0 < d.mantissa)
    (hs : c.negative = d.negative) (h : (ofDyadic d).contains c.magnitude = true) :
    c.toFloat = x := by
  obtain ⟨hlow, hhigh⟩ := magnitude_bounds (Dyadic.canonical_of_ofFloat? hx) hm h
  rw [toFloat_eq hlow hhigh, hs]
  exact Ratio.toFloat_of_contains hx hm h

end Decimal
end PocketCalculator
