import PocketCalculator.Proofs.Number.Unpacked

/-! # Correct rounding to a double

`Ratio.nearest` is the number that the double nearest to a ratio stands for.  It is on the same side
of every number that a double can hold as the ratio itself (`Ratio.nearest_le`, `Ratio.le_nearest`),
and off by half a unit of the last bit at most (`Ratio.abs_nearest_sub_le`).  Below the range of
infinity this is what `Ratio.toFloat` writes: `Ratio.ofFloat?_toFloat`. -/

namespace PocketCalculator

/-! ### Numbers that a double can hold -/

/-- A multiple of a power of two, with 53 bits at most. -/
def IsRepresentable (a : ℚ) : Prop :=
  ∃ (n : ℕ) (g : ℤ), n ≤ 2 ^ 53 ∧ leastExponent ≤ g ∧ a = n * 2 ^ g

theorem isRepresentable_natCast {n : ℕ} (h : n ≤ 2 ^ 53) : IsRepresentable n :=
  ⟨n, 0, h, by decide, by simp⟩

theorem natCast_lt_infinity {n : ℕ} (h : n ≤ 2 ^ 53) : (n : ℚ) < 2 ^ (1024 : ℤ) := by
  have hn : (n : ℚ) ≤ 2 ^ 53 := by exact_mod_cast h
  refine hn.trans_lt ?_
  rw [← zpow_natCast]
  exact zpow_lt_zpow_right₀ one_lt_two (by norm_num)

theorem Dyadic.Canonical.isRepresentable {d : Dyadic} (hc : d.Canonical) :
    IsRepresentable d.magnitude.toRat :=
  ⟨d.mantissa, d.exponent, hc.mantissa_lt.le, hc.least_le, d.toRat_magnitude⟩

theorem IsRepresentable.nonneg {a : ℚ} (h : IsRepresentable a) : 0 ≤ a := by
  obtain ⟨n, g, -, -, rfl⟩ := h
  exact mul_nonneg (Nat.cast_nonneg _) (zpow_pos two_pos _).le

/-- What a double can hold is a multiple of a given unit, or has no more than 52 bits above it. -/
theorem IsRepresentable.multiple_or_le {a : ℚ} (h : IsRepresentable a) {g : ℤ} :
    (∃ n : ℕ, a = n * 2 ^ g) ∨ leastExponent < g ∧ a ≤ 2 ^ 52 * 2 ^ g := by
  obtain ⟨n, k, hn, hk, rfl⟩ := h
  rcases le_or_gt g k with hgk | hgk
  · refine .inl ⟨n * 2 ^ (k - g).toNat, ?_⟩
    rw [Nat.cast_mul, Nat.cast_pow, Nat.cast_two, ← zpow_natCast, mul_assoc,
      ← zpow_add₀ two_ne_zero]
    congr 2
    omega
  · refine .inr ⟨by omega, ?_⟩
    have hn' : (n : ℚ) ≤ 2 ^ 53 := by exact_mod_cast hn
    calc (n : ℚ) * 2 ^ k ≤ 2 ^ 53 * 2 ^ (g - 1) :=
          mul_le_mul hn' (zpow_le_zpow_right₀ one_le_two (by omega)) (zpow_pos two_pos _).le
            (by norm_num)
      _ = 2 ^ 52 * 2 ^ g := by
          rw [zpow_sub_one₀ two_ne_zero]
          ring

/-- A number that a double can hold, counted down in units that leave it 53 bits. -/
theorem IsRepresentable.exists_sub_mul {a : ℚ} (ha : IsRepresentable a) {g : ℤ} {t : ℕ}
    (hlow : 2 ^ 52 * 2 ^ g < a) (hhigh : a ≤ t * 2 ^ g) : ∃ p : ℕ, a = (t - p) * 2 ^ g := by
  obtain ⟨n, rfl⟩ | ⟨-, hle⟩ := @IsRepresentable.multiple_or_le a ha g
  · have hle : n ≤ t := by
      exact_mod_cast le_of_mul_le_mul_right hhigh (zpow_pos two_pos g)
    obtain ⟨p, rfl⟩ := Nat.exists_eq_add_of_le hle
    refine ⟨p, ?_⟩
    rw [Nat.cast_add, add_sub_cancel_right]
  · exact absurd hle (not_le.2 hlow)

theorem IsRepresentable.le_of_lt_mul {a : ℚ} (ha : IsRepresentable a) {g : ℤ} {t : ℕ}
    (ht : 2 ^ 52 < t) (hlt : a < t * 2 ^ g) : a ≤ (t - 1) * 2 ^ g := by
  have hpos : (0 : ℚ) < 2 ^ g := zpow_pos two_pos _
  obtain ⟨n, rfl⟩ | ⟨-, hle⟩ := @IsRepresentable.multiple_or_le a ha g
  · have hn : n + 1 ≤ t := by
      exact_mod_cast lt_of_mul_lt_mul_right hlt hpos.le
    have hn' : (n : ℚ) + 1 ≤ t := by exact_mod_cast hn
    exact mul_le_mul_of_nonneg_right (by linarith) hpos.le
  · have ht' : (2 : ℚ) ^ 52 + 1 ≤ t := by exact_mod_cast ht
    exact hle.trans (mul_le_mul_of_nonneg_right (by linarith) hpos.le)

/-! ### The grid around a ratio -/

namespace Ratio

variable {r : Ratio}

theorem lt_gridExponent (h : r.num ≠ 0) : r.toRat < 2 ^ 53 * 2 ^ r.gridExponent := by
  refine (binaryExponent_spec h).2.trans_le ?_
  rw [← zpow_natCast, ← zpow_add₀ two_ne_zero]
  refine zpow_le_zpow_right₀ one_le_two ?_
  have : r.binaryExponent - fractionBits ≤ r.gridExponent := le_max_left _ _
  change r.binaryExponent - 52 ≤ r.gridExponent at this
  push_cast
  omega

theorem gridExponent_le (h : r.num ≠ 0) (hg : leastExponent < r.gridExponent) :
    2 ^ 52 * 2 ^ r.gridExponent ≤ r.toRat := by
  refine le_trans ?_ (binaryExponent_spec h).1
  rw [← zpow_natCast, ← zpow_add₀ two_ne_zero]
  refine zpow_le_zpow_right₀ one_le_two ?_
  change leastExponent < max (r.binaryExponent - 52) leastExponent at hg
  change (52 : ℕ) + max (r.binaryExponent - 52) leastExponent ≤ r.binaryExponent
  push_cast
  omega

theorem least_le_gridExponent : leastExponent ≤ r.gridExponent :=
  le_max_right _ _

theorem toRat_units (r : Ratio) :
    (r.mulTwoPow (-r.gridExponent)).toRat * 2 ^ r.gridExponent = r.toRat := by
  rw [toRat_mulTwoPow, mul_assoc, ← zpow_add₀ two_ne_zero, neg_add_cancel, zpow_zero, mul_one]

theorem round_le {n : Nat} (tie : Tie) (h : r.toRat ≤ n) : r.round tie ≤ n := by
  have hround := (abs_le.1 (r.abs_sub_round_le tie)).1
  have hlt : (r.round tie : ℚ) < n + 1 := by linarith
  exact Nat.lt_succ_iff.1 (by exact_mod_cast hlt)

theorem le_round {n : Nat} (tie : Tie) (h : n ≤ r.toRat) : n ≤ r.round tie := by
  have hround := (abs_le.1 (r.abs_sub_round_le tie)).2
  have hlt : (n : ℚ) < r.round tie + 1 := by linarith
  exact Nat.lt_succ_iff.1 (by exact_mod_cast hlt)

/-! ### Rounding to multiples of a unit -/

section unit

variable {u : ℚ} (hu : 0 < u) (tie : Tie) {n : ℕ}

include hu

theorem round_mul_le (h : r.toRat * u ≤ n * u) : r.round tie * u ≤ n * u :=
  mul_le_mul_of_nonneg_right (Nat.cast_le.2 (round_le tie (le_of_mul_le_mul_right h hu))) hu.le

theorem le_round_mul (h : n * u ≤ r.toRat * u) : n * u ≤ r.round tie * u :=
  mul_le_mul_of_nonneg_right (Nat.cast_le.2 (le_round tie (le_of_mul_le_mul_right h hu))) hu.le

theorem abs_round_mul_sub_le : |r.round tie * u - r.toRat * u| ≤ 1 / 2 * u := by
  rw [← sub_mul, abs_mul, abs_of_pos hu, abs_sub_comm]
  exact mul_le_mul_of_nonneg_right (abs_sub_round_le _ _) hu.le

end unit

/-! ### The nearest number -/

/-- How many units of its grid the number nearest to a ratio has. -/
def units (r : Ratio) : ℕ :=
  (r.mulTwoPow (-r.gridExponent)).round .toEven

/-- The number that the nearest double stands for. -/
def nearest (r : Ratio) : ℚ :=
  r.units * 2 ^ r.gridExponent

theorem nearest_nonneg (r : Ratio) : 0 ≤ r.nearest :=
  mul_nonneg (Nat.cast_nonneg _) (zpow_pos two_pos _).le

theorem nearest_le_mul {n : ℕ} (h : r.toRat ≤ n * 2 ^ r.gridExponent) :
    r.nearest ≤ n * 2 ^ r.gridExponent :=
  round_mul_le (zpow_pos two_pos _) .toEven (by rwa [r.toRat_units])

theorem mul_le_nearest {n : ℕ} (h : n * 2 ^ r.gridExponent ≤ r.toRat) :
    n * 2 ^ r.gridExponent ≤ r.nearest :=
  le_round_mul (zpow_pos two_pos _) .toEven (by rwa [r.toRat_units])

theorem nearest_of_num_eq_zero (h : r.num = 0) : r.nearest = 0 := by
  have hle := @nearest_le_mul r 0 (by rw [(r.num_eq_zero_iff).1 h, Nat.cast_zero, zero_mul])
  rw [Nat.cast_zero, zero_mul] at hle
  exact le_antisymm hle r.nearest_nonneg

/-- Rounding does not pass a number that a double can hold. -/
theorem nearest_le {a : ℚ} (ha : IsRepresentable a) (h : r.toRat ≤ a) : r.nearest ≤ a := by
  by_cases hr : r.num = 0
  · rw [nearest_of_num_eq_zero hr]
    exact ha.nonneg
  · obtain ⟨n, rfl⟩ | ⟨hg, hle⟩ := @IsRepresentable.multiple_or_le a ha r.gridExponent
    · exact nearest_le_mul h
    · -- the ratio has all its bits, so it is the lowest number on its grid
      have hlow := gridExponent_le hr hg
      have := @nearest_le_mul r (2 ^ 52) (by push_cast; linarith)
      push_cast at this
      linarith

/-- Rounding does not pass a number that a double can hold. -/
theorem le_nearest {a : ℚ} (ha : IsRepresentable a) (h : a ≤ r.toRat) : a ≤ r.nearest := by
  by_cases hr : r.num = 0
  · rw [nearest_of_num_eq_zero hr, ← (r.num_eq_zero_iff).1 hr]
    exact h
  · obtain ⟨n, rfl⟩ | ⟨hg, hle⟩ := @IsRepresentable.multiple_or_le a ha r.gridExponent
    · exact mul_le_nearest h
    · have := @mul_le_nearest r (2 ^ 52) (by push_cast; exact gridExponent_le hr hg)
      push_cast at this
      linarith

theorem nearest_lt_of_le (hr : r.toRat ≤ 2 ^ 53) : r.nearest < 2 ^ (1024 : ℤ) :=
  (nearest_le (isRepresentable_natCast le_rfl) (by exact_mod_cast hr)).trans_lt
    (natCast_lt_infinity le_rfl)

theorem nearest_eq {a : ℚ} (ha : IsRepresentable a) (h : r.toRat = a) : r.nearest = a :=
  le_antisymm (nearest_le ha h.le) (le_nearest ha h.ge)

theorem abs_nearest_sub_le_grid (r : Ratio) :
    |r.nearest - r.toRat| ≤ 1 / 2 * 2 ^ r.gridExponent := by
  have h := @abs_round_mul_sub_le (r.mulTwoPow (-r.gridExponent)) (2 ^ r.gridExponent)
    (zpow_pos two_pos _) .toEven
  rwa [r.toRat_units] at h

theorem abs_nearest_sub_le_of_lt {g : ℤ} (hg : leastExponent ≤ g) (h : r.toRat < 2 ^ 53 * 2 ^ g) :
    |r.nearest - r.toRat| ≤ 1 / 2 * 2 ^ g := by
  by_cases hr : r.num = 0
  · rw [nearest_of_num_eq_zero hr, (r.num_eq_zero_iff).1 hr, sub_zero, abs_zero]
    positivity
  · have hlt : r.binaryExponent < 53 + g := by
      rw [binaryExponent_lt_iff hr, zpow_add₀ two_ne_zero]
      exact h
    have hle : r.gridExponent ≤ g := by
      change max (r.binaryExponent - 52) leastExponent ≤ g
      omega
    exact r.abs_nearest_sub_le_grid.trans
      (mul_le_mul_of_nonneg_left (zpow_le_zpow_right₀ one_le_two hle) (by norm_num))

theorem half_least_le : (1 : ℚ) / 2 ^ 1075 ≤ 1 / 2 ^ 200 :=
  one_div_le_one_div_of_le (by norm_num) (pow_le_pow_right₀ one_le_two (by norm_num))

/-- Rounding is off by half a unit at most: one part in `2 ^ 53`, or half the least number. -/
theorem abs_nearest_sub_le (r : Ratio) :
    |r.nearest - r.toRat| ≤ r.toRat / 2 ^ 53 + 1 / 2 ^ 1075 := by
  by_cases hr : r.num = 0
  · rw [nearest_of_num_eq_zero hr, (r.num_eq_zero_iff).1 hr, sub_zero, abs_zero]
    positivity
  · refine r.abs_nearest_sub_le_grid.trans ?_
    rcases eq_or_lt_of_le (@least_le_gridExponent r) with hg | hg
    · have hbottom : 1 / 2 * (2 : ℚ) ^ r.gridExponent = 1 / 2 ^ 1075 := by
        rw [← hg, leastExponent, zpow_neg, show (1074 : ℤ) = (1074 : ℕ) by norm_num, zpow_natCast,
          pow_succ' (2 : ℚ) 1074, one_div, one_div, mul_inv]
      have := r.toRat_nonneg
      rw [hbottom]
      exact le_add_of_nonneg_left (by positivity)
    · have hlow := gridExponent_le hr hg
      have hthis : 1 / 2 * (2 : ℚ) ^ r.gridExponent ≤ r.toRat / 2 ^ 53 := by
        rw [le_div_iff₀ (by norm_num)]
        linarith
      exact hthis.trans (le_add_of_nonneg_right (by positivity))

end Ratio

/-! ### The nearest double -/

theorem lt_of_mul_zpow_lt {n : ℕ} {g k : ℤ} {m : ℕ} (hn : 2 ^ m ≤ n)
    (h : (n : ℚ) * 2 ^ g < 2 ^ k) : m + g < k := by
  refine (zpow_lt_zpow_iff_right₀ (one_lt_two : (1 : ℚ) < 2)).1 (lt_of_le_of_lt ?_ h)
  rw [zpow_add₀ two_ne_zero, zpow_natCast]
  exact mul_le_mul_of_nonneg_right (by exact_mod_cast hn) (zpow_pos two_pos _).le

/-- The dyadic of a number of units of a grid.  A mantissa that has reached the next power of two
carries. -/
def Dyadic.ofUnits (negative : Bool) (n : ℕ) (g : ℤ) : Dyadic :=
  if n < 2 ^ 53 then ⟨negative, n, g⟩ else ⟨negative, 2 ^ 52, g + 1⟩

namespace Dyadic

variable {n : ℕ} {g : ℤ} (negative : Bool)

@[simp]
theorem negative_ofUnits : (ofUnits negative n g).negative = negative := by
  rw [ofUnits]
  split <;> rfl

theorem toRat_ofUnits (hn : n ≤ 2 ^ 53) : (ofUnits negative n g).magnitude.toRat = n * 2 ^ g := by
  rw [ofUnits]
  split
  · rw [toRat_magnitude]
  · have hn : n = 2 ^ 53 := by omega
    rw [toRat_magnitude, zpow_add_one₀ two_ne_zero, hn]
    push_cast
    ring

/-- The bits count the units above those of the binades below. -/
theorem pattern_ofUnits (hn : n ≤ 2 ^ 53) (hg : leastExponent ≤ g) :
    (ofUnits negative n g).pattern = (g - leastExponent).toNat * twoPow fractionBits + n := by
  rw [ofUnits]
  split
  · rfl
  · have h52 : twoPow fractionBits = 2 ^ 52 := rfl
    have hn : n = 2 ^ 53 := by omega
    rw [pattern, h52, hn]
    dsimp only
    omega

theorem canonical_ofUnits (hn : n ≤ 2 ^ 53) (hg : leastExponent ≤ g)
    (hfull : g = leastExponent ∨ 2 ^ 52 ≤ n) (hlt : (n : ℚ) * 2 ^ g < 2 ^ (1024 : ℤ)) :
    (ofUnits negative n g).Canonical := by
  rw [ofUnits]
  split
  · rename_i hn
    refine ⟨hn, hg, ?_, hfull⟩
    rcases hfull with rfl | hfull
    · exact (by decide : leastExponent ≤ 971)
    · have := lt_of_mul_zpow_lt hfull hlt
      change g ≤ 971
      push_cast at this
      omega
  · have hn : n = 2 ^ 53 := by omega
    rw [hn] at hlt
    have hg' := lt_of_mul_zpow_lt le_rfl hlt
    push_cast at hg'
    refine ⟨by norm_num, ?_, ?_, .inr le_rfl⟩
    · change leastExponent ≤ g + 1
      omega
    · change g + 1 ≤ 971
      omega

end Dyadic

namespace Ratio

variable {r : Ratio}

theorem units_le (hr : r.num ≠ 0) : r.units ≤ 2 ^ 53 := by
  refine round_le .toEven (le_of_mul_le_mul_right ?_ (zpow_pos two_pos r.gridExponent))
  rw [r.toRat_units]
  push_cast
  exact (lt_gridExponent hr).le

theorem units_full (hr : r.num ≠ 0) : r.gridExponent = leastExponent ∨ 2 ^ 52 ≤ r.units := by
  refine (eq_or_lt_of_le least_le_gridExponent).imp Eq.symm fun hg => ?_
  refine le_round .toEven (le_of_mul_le_mul_right ?_ (zpow_pos two_pos r.gridExponent))
  rw [r.toRat_units]
  push_cast
  exact gridExponent_le hr hg

theorem isRepresentable_nearest (hr : r.num ≠ 0) : IsRepresentable r.nearest :=
  ⟨r.units, r.gridExponent, units_le hr, least_le_gridExponent, rfl⟩

/-- What is read off the double nearest to a ratio that is not zero. -/
def nearestDyadic (negative : Bool) (r : Ratio) : Dyadic :=
  .ofUnits negative r.units r.gridExponent

theorem canonical_nearestDyadic (hr : r.num ≠ 0) (hlt : r.nearest < 2 ^ (1024 : ℤ))
    (negative : Bool) : (r.nearestDyadic negative).Canonical :=
  Dyadic.canonical_ofUnits negative (units_le hr) least_le_gridExponent (units_full hr) hlt

theorem toFloat_eq (hr : r.num ≠ 0) (hlt : r.nearest < 2 ^ (1024 : ℤ)) (negative : Bool) :
    r.toFloat negative = floatOfMagnitude negative (r.nearestDyadic negative).pattern := by
  have hpattern := Dyadic.pattern_ofUnits negative (units_le hr) (@least_le_gridExponent r)
  rw [toFloat, nearestBits_eq hr rfl rfl]
  congr 1
  rw [nearestDyadic, hpattern]
  refine Nat.min_eq_left ?_
  rw [← units, ← hpattern]
  exact (canonical_nearestDyadic hr hlt negative).pattern_lt.le

/-- Below infinity the nearest double stands for the nearest number. -/
theorem ofFloat?_toFloat (hlt : r.nearest < 2 ^ (1024 : ℤ)) (negative : Bool) :
    ∃ d, Dyadic.ofFloat? (r.toFloat negative) = some d ∧ d.negative = negative ∧
      d.magnitude.toRat = r.nearest := by
  by_cases hr : r.num = 0
  · have hc : (⟨negative, 0, leastExponent⟩ : Dyadic).Canonical :=
      ⟨Nat.two_pow_pos 53, le_rfl, (by decide : leastExponent ≤ 971), .inl rfl⟩
    have hzero := Dyadic.ofFloat?_floatOfMagnitude hc
    rw [hc.pattern_eq_zero rfl] at hzero
    refine ⟨⟨negative, 0, leastExponent⟩, ?_, rfl, ?_⟩
    · rw [toFloat, nearestBits, if_pos hr]
      exact hzero
    · rw [nearest_of_num_eq_zero hr, Dyadic.toRat_magnitude, Nat.cast_zero, zero_mul]
  · have hread := Dyadic.ofFloat?_floatOfMagnitude (canonical_nearestDyadic hr hlt negative)
    rw [nearestDyadic, Dyadic.negative_ofUnits, ← nearestDyadic, ← toFloat_eq hr hlt] at hread
    exact ⟨_, hread, Dyadic.negative_ofUnits negative, Dyadic.toRat_ofUnits negative (units_le hr)⟩

end Ratio
end PocketCalculator
