import PocketCalculator.Number.Ratio
import Mathlib.Algebra.Order.Field.Rat
import Mathlib.Algebra.Order.Floor.Semifield
import Mathlib.Data.Rat.Cast.Order
import Mathlib.Tactic

/-! # Ratios as rational numbers

Every operation on ratios is the operation on the rational number `Ratio.toRat` that the ratio
stands for: the shifts by powers of the two bases multiply it (`toRat_mulTwoPow`,
`toRat_mulTenPow`), the comparisons compare it, and the whole parts bound it.  Rounding is
determined by closeness alone: `round_eq_of_abs_lt` off the middle, `round_toEven_eq_of_abs_le` up
to the middle for an even number.  The two exponents are the logarithms of it, rounded down. -/

namespace PocketCalculator.Ratio

/-- The rational number that a ratio stands for. -/
def toRat (r : Ratio) : ℚ :=
  r.num / r.den

variable (r s : Ratio)

theorem den_cast_pos : (0 : ℚ) < r.den :=
  Nat.cast_pos.2 r.den_pos

theorem toRat_mul_den : r.toRat * r.den = r.num :=
  div_mul_cancel₀ _ r.den_cast_pos.ne'

theorem toRat_nonneg : 0 ≤ r.toRat :=
  div_nonneg (Nat.cast_nonneg _) (Nat.cast_nonneg _)

theorem num_eq_zero_iff : r.num = 0 ↔ r.toRat = 0 := by
  rw [toRat, div_eq_zero_iff, Nat.cast_eq_zero, or_iff_left r.den_cast_pos.ne']

theorem num_ne_zero {r : Ratio} (h : 0 < r.toRat) : r.num ≠ 0 :=
  mt r.num_eq_zero_iff.1 h.ne'

@[simp]
theorem toRat_ofNat (n : Nat) : (ofNat n).toRat = n := by
  rw [toRat, ofNat, Nat.cast_one, div_one]

/-! ### Shifts and comparisons -/

theorem cast_twoPow (k : ℕ) : (twoPow k : ℚ) = 2 ^ k :=
  Nat.cast_pow 2 k

theorem cast_tenPow (k : ℕ) : (tenPow k : ℚ) = 10 ^ k :=
  Nat.cast_pow 10 k

theorem mul_pow_div (a b c : ℚ) (k : ℕ) : a * b ^ k / c = a / c * b ^ Int.ofNat k := by
  rw [Int.ofNat_eq_natCast, zpow_natCast, mul_div_right_comm]

theorem div_mul_pow (a b c : ℚ) (k : ℕ) : a / (c * b ^ (k + 1)) = a / c * b ^ Int.negSucc k := by
  rw [zpow_negSucc, ← div_div, div_eq_mul_inv]

@[simp]
theorem toRat_mulTwoPow (k : Int) : (r.mulTwoPow k).toRat = r.toRat * 2 ^ k := by
  cases k with
  | ofNat k =>
      rw [mulTwoPow, toRat, toRat, Nat.cast_mul, cast_twoPow]
      exact mul_pow_div _ _ _ k
  | negSucc k =>
      rw [mulTwoPow, toRat, toRat, Nat.cast_mul, cast_twoPow]
      exact div_mul_pow _ _ _ k

@[simp]
theorem toRat_mulTenPow (k : Int) : (r.mulTenPow k).toRat = r.toRat * 10 ^ k := by
  cases k with
  | ofNat k =>
      rw [mulTenPow, toRat, toRat, Nat.cast_mul, cast_tenPow]
      exact mul_pow_div _ _ _ k
  | negSucc k =>
      rw [mulTenPow, toRat, toRat, Nat.cast_mul, cast_tenPow]
      exact div_mul_pow _ _ _ k

theorem le_iff : r.le s = true ↔ r.toRat ≤ s.toRat := by
  rw [Ratio.le, decide_eq_true_eq, toRat, toRat, div_le_div_iff₀ r.den_cast_pos s.den_cast_pos]
  exact_mod_cast Iff.rfl

theorem lt_iff : r.lt s = true ↔ r.toRat < s.toRat := by
  rw [Ratio.lt, decide_eq_true_eq, toRat, toRat, div_lt_div_iff₀ r.den_cast_pos s.den_cast_pos]
  exact_mod_cast Iff.rfl

/-! ### Whole parts -/

theorem floor_le : (r.floor : ℚ) ≤ r.toRat := by
  rw [floor, toRat]
  exact Nat.cast_div_le

theorem lt_floor_add_one : r.toRat < r.floor + 1 := by
  rw [floor, toRat, div_lt_iff₀ r.den_cast_pos]
  exact_mod_cast Nat.lt_mul_of_div_lt (Nat.lt_succ_self _) r.den_pos

theorem abs_sub_round_le (tie : Tie) : |r.toRat - r.round tie| ≤ 1 / 2 := by
  have hd := r.den_cast_pos
  have hm := r.toRat_mul_den
  have h₁ : 2 * ((r.round tie : ℚ) * r.den) ≤ 2 * r.num + r.den := by
    exact_mod_cast roundDiv_le tie r.num r.den
  have h₂ : 2 * (r.num : ℚ) ≤ 2 * (r.round tie * r.den) + r.den := by
    exact_mod_cast le_roundDiv tie r.num r.den_pos
  rw [abs_le]
  constructor
  · refine le_of_mul_le_mul_right ?_ hd
    linarith
  · refine le_of_mul_le_mul_right ?_ hd
    linarith

/-- A whole number less than half a unit away is the rounded one. -/
theorem round_eq_of_abs_lt (tie : Tie) {n : Nat} (h : |r.toRat - n| < 1 / 2) : r.round tie = n := by
  obtain ⟨h₁, h₂⟩ := abs_le.1 (r.abs_sub_round_le tie)
  obtain ⟨h₃, h₄⟩ := abs_lt.1 h
  have hlt : (r.round tie : ℚ) < n + 1 := by linarith
  have hgt : (n : ℚ) < r.round tie + 1 := by linarith
  have hlt' : r.round tie < n + 1 := by exact_mod_cast hlt
  have hgt' : n < r.round tie + 1 := by exact_mod_cast hgt
  omega

theorem roundDiv_toEven_eq {num den n : Nat} (hd : 0 < den) (hn : n % 2 = 0)
    (h₁ : 2 * num ≤ 2 * (n * den) + den) (h₂ : 2 * (n * den) ≤ 2 * num + den) :
    roundDiv .toEven num den = n := by
  have hdiv := Nat.div_add_mod num den
  rw [Nat.mul_comm] at hdiv
  have hmod := Nat.mod_lt num hd
  have hle : num / den ≤ n := by
    by_contra hlt
    have := Nat.mul_le_mul_right den (show n + 1 ≤ num / den by omega)
    rw [Nat.add_mul, Nat.one_mul] at this
    omega
  have hge : n ≤ num / den + 1 := by
    by_contra hlt
    have := Nat.mul_le_mul_right den (show num / den + 1 + 1 ≤ n by omega)
    rw [Nat.add_mul, Nat.add_mul, Nat.one_mul] at this
    omega
  unfold roundDiv
  simp only [Tie.goesUp, beq_iff_eq]
  obtain rfl | hn' : n = num / den ∨ n = num / den + 1 := by omega
  · -- the remainder is at most half, and in the middle the number below is even
    rw [if_neg (by omega : ¬den < 2 * (num % den)), if_neg (by omega : ¬num / den % 2 = 1),
      ite_self]
  · -- the remainder is at least half, and in the middle the number below is odd
    rw [hn', Nat.add_mul, Nat.one_mul] at h₂
    rw [if_neg (by omega), if_pos (by omega : num / den % 2 = 1), ite_self, hn']

/-- An even number at most half a unit away is the rounded one. -/
theorem round_toEven_eq_of_abs_le {n : Nat} (hn : n % 2 = 0) (h : |r.toRat - n| ≤ 1 / 2) :
    r.round .toEven = n := by
  have hd := r.den_cast_pos
  have hm := r.toRat_mul_den
  obtain ⟨h₁, h₂⟩ := abs_le.1 h
  have h₃ := mul_le_mul_of_nonneg_right h₁ hd.le
  have h₄ := mul_le_mul_of_nonneg_right h₂ hd.le
  have h₅ : 2 * (r.num : ℚ) ≤ 2 * (n * r.den) + r.den := by linarith
  have h₆ : 2 * ((n : ℚ) * r.den) ≤ 2 * r.num + r.den := by linarith
  exact roundDiv_toEven_eq r.den_pos hn (by exact_mod_cast h₅) (by exact_mod_cast h₆)

/-! ### Sizes -/

theorem zpow_lt_div_lt {b x y : ℚ} (hb : 1 < b) {k l : ℤ} (hx : b ^ k ≤ x) (hx' : x < b ^ (k + 1))
    (hy : b ^ l ≤ y) (hy' : y < b ^ (l + 1)) :
    b ^ (k - l - 1) < x / y ∧ x / y < b ^ (k - l + 1) := by
  have hb0 : b ≠ 0 := by linarith
  have hl : 0 < b ^ l := zpow_pos (by linarith) l
  have hy0 : 0 < y := hl.trans_le hy
  constructor
  · rw [lt_div_iff₀ hy0]
    calc b ^ (k - l - 1) * y < b ^ (k - l - 1) * b ^ (l + 1) := by
            exact mul_lt_mul_of_pos_left hy' (zpow_pos (by linarith) _)
      _ = b ^ k := by rw [← zpow_add₀ hb0]; congr 1; ring
      _ ≤ x := hx
  · rw [div_lt_iff₀ hy0]
    calc x < b ^ (k + 1) := hx'
      _ = b ^ (k - l + 1) * b ^ l := by rw [← zpow_add₀ hb0]; congr 1; ring
      _ ≤ b ^ (k - l + 1) * y := by
            exact mul_le_mul_of_nonneg_left hy (zpow_pos (by linarith) _).le

/-- A guess of a logarithm that is one too high at most, corrected, is the logarithm. -/
theorem zpow_le_of_corrected {b x : ℚ} {k : ℤ} {p : Prop} [Decidable p] (hp : p ↔ b ^ k ≤ x)
    (hlow : b ^ (k - 1) < x) (hhigh : x < b ^ (k + 1)) :
    b ^ (if p then k else k - 1) ≤ x ∧ x < b ^ ((if p then k else k - 1) + 1) := by
  by_cases h : p
  · rw [if_pos h]
    exact ⟨hp.1 h, hhigh⟩
  · rw [if_neg h, sub_add_cancel]
    exact ⟨hlow.le, not_le.1 (fun hle => h (hp.2 hle))⟩

theorem lt_iff_of_zpow_bounds {b x : ℚ} {k l : ℤ} (hb : 1 < b) (hlow : b ^ k ≤ x)
    (hhigh : x < b ^ (k + 1)) : k < l ↔ x < b ^ l :=
  ⟨fun h => hhigh.trans_le (zpow_le_zpow_right₀ hb.le h),
    fun h => (zpow_lt_zpow_iff_right₀ hb).1 (hlow.trans_lt h)⟩

theorem log2_bounds {n : Nat} (h : n ≠ 0) :
    (2 : ℚ) ^ (n.log2 : ℤ) ≤ n ∧ (n : ℚ) < 2 ^ ((n.log2 : ℤ) + 1) := by
  constructor
  · exact_mod_cast Nat.log2_self_le h
  · exact_mod_cast Nat.lt_log2_self

theorem decimalLength_pos (n : Nat) : 0 < decimalLength n :=
  Nat.length_toDigits_pos

theorem decimalLength_bounds {n : Nat} (h : n ≠ 0) :
    (10 : ℚ) ^ ((decimalLength n : ℤ) - 1) ≤ n ∧
      (n : ℚ) < 10 ^ ((decimalLength n : ℤ) - 1 + 1) := by
  have hpos := decimalLength_pos n
  have hlt : n < 10 ^ decimalLength n := (decimalLength_le_iff hpos).1 (Nat.le_refl _)
  have hle : 10 ^ (decimalLength n - 1) ≤ n := by
    by_cases h1 : decimalLength n = 1
    · rw [h1]
      exact Nat.pos_of_ne_zero h
    · by_contra hlt'
      have := (decimalLength_le_iff (by omega)).2 (show n < tenPow (decimalLength n - 1) by
        exact not_le.1 hlt')
      omega
  rw [sub_add_cancel, show (decimalLength n : ℤ) - 1 = ((decimalLength n - 1 : Nat) : ℤ) by omega]
  exact ⟨by exact_mod_cast hle, by exact_mod_cast hlt⟩

variable {r}

theorem binaryExponent_spec (h : r.num ≠ 0) :
    (2 : ℚ) ^ r.binaryExponent ≤ r.toRat ∧ r.toRat < 2 ^ (r.binaryExponent + 1) := by
  obtain ⟨hn, hn'⟩ := log2_bounds h
  obtain ⟨hd, hd'⟩ := log2_bounds r.den_pos.ne'
  obtain ⟨hlow, hhigh⟩ := zpow_lt_div_lt one_lt_two hn hn' hd hd'
  refine zpow_le_of_corrected ?_ hlow hhigh
  rw [le_iff, toRat_mulTwoPow, toRat_ofNat, Nat.cast_one, one_mul]

theorem binaryExponent_lt_iff (h : r.num ≠ 0) {k : ℤ} :
    r.binaryExponent < k ↔ r.toRat < 2 ^ k :=
  lt_iff_of_zpow_bounds one_lt_two (binaryExponent_spec h).1 (binaryExponent_spec h).2

theorem le_binaryExponent_iff (h : r.num ≠ 0) {k : ℤ} :
    k ≤ r.binaryExponent ↔ 2 ^ k ≤ r.toRat := by
  rw [← not_lt, binaryExponent_lt_iff h, not_lt]

theorem decimalExponent_spec (h : r.num ≠ 0) :
    (10 : ℚ) ^ r.decimalExponent ≤ r.toRat ∧ r.toRat < 10 ^ (r.decimalExponent + 1) := by
  obtain ⟨hn, hn'⟩ := decimalLength_bounds h
  obtain ⟨hd, hd'⟩ := decimalLength_bounds r.den_pos.ne'
  obtain ⟨hlow, hhigh⟩ := zpow_lt_div_lt (by norm_num) hn hn' hd hd'
  rw [sub_sub_sub_cancel_right] at hlow hhigh
  refine zpow_le_of_corrected ?_ hlow hhigh
  rw [le_iff, toRat_mulTenPow, toRat_ofNat, Nat.cast_one, one_mul]

theorem decimalExponent_lt_iff (h : r.num ≠ 0) {k : ℤ} :
    r.decimalExponent < k ↔ r.toRat < 10 ^ k :=
  lt_iff_of_zpow_bounds (by norm_num) (decimalExponent_spec h).1 (decimalExponent_spec h).2

theorem le_decimalExponent_iff (h : r.num ≠ 0) {k : ℤ} :
    k ≤ r.decimalExponent ↔ 10 ^ k ≤ r.toRat := by
  rw [← not_lt, decimalExponent_lt_iff h, not_lt]

end PocketCalculator.Ratio
