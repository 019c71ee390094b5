import PocketCalculator.Format.Engineering
import PocketCalculator.Proofs.Elementary.CommonLogarithm

/-! # The exponent of the engineering format

The exponent is a multiple of three, whichever common logarithm it comes from.  A number in the
engineering format is between its own power of a thousand and the next one, but for the error of the
logarithm and of the rounding of its third: less than 42 parts in `10 ^ 14`
(`engineeringExponent_spec`). -/

namespace PocketCalculator

open Real (log logb)

/-! ### Whole parts -/

namespace Dyadic

theorem floor_eq (d : Dyadic) : d.floor = ⌊d.value⌋ := by
  have hlow := d.magnitude.floor_le
  have hhigh := d.magnitude.lt_floor_add_one
  symm
  rw [Int.floor_eq_iff, floor, truncate, value]
  cases hneg : d.negative with
  | false =>
      simp only [Bool.false_and, Bool.false_eq_true, if_false, signed, Int.cast_natCast]
      exact ⟨hlow, hhigh⟩
  | true =>
      have hwhole : d.isWhole = true ↔ d.magnitude.toRat = d.magnitude.floor := by
        rw [isWhole, beq_iff_eq, Ratio.floor, Ratio.toRat, div_eq_iff d.magnitude.den_cast_pos.ne']
        rw [← Nat.dvd_iff_mod_eq_zero, Nat.dvd_iff_div_mul_eq]
        exact_mod_cast eq_comm
      by_cases hw : d.isWhole = true
      · have := hwhole.1 hw
        simp only [hw, Bool.not_true, Bool.and_false, Bool.false_eq_true, if_false, if_true, signed]
        push_cast
        constructor <;> linarith
      · have hne : d.magnitude.toRat ≠ d.magnitude.floor := mt hwhole.2 hw
        have hlt := lt_of_le_of_ne hlow hne.symm
        simp only [hw, Bool.not_false, Bool.and_true, if_true, signed]
        push_cast
        constructor <;> linarith

end Dyadic

/-! ### A third of the logarithm -/

/-- The double three. -/
def three : Dyadic :=
  ⟨false, 3 * 2 ^ 51, -51⟩

theorem ofFloat?_three : Dyadic.ofFloat? 3 = some three := by
  decide

theorem toRat_three : three.magnitude.toRat = 3 := by
  rw [Dyadic.toRat_magnitude, three]
  norm_num

theorem exists_div_three {x : Float} {a : Dyadic} (hx : Dyadic.ofFloat? x = some a)
    (ha : |a.value| ≤ 2 ^ 53) : ∃ b, Dyadic.ofFloat? (x / 3) = some b ∧
      |b.value - a.value / 3| ≤ |a.value| / 3 / 2 ^ 53 + 1 / 2 ^ 1075 := by
  have hpos : 0 < three.mantissa := by decide
  have hq : (a.quotient three hpos).toRat = a.magnitude.toRat / 3 := by
    rw [Dyadic.quotient, Ratio.toRat_div, toRat_three]
  have hsmall : (a.quotient three hpos).toRat ≤ 2 ^ 53 := by
    rw [a.abs_value] at ha
    rw [hq]
    exact (div_le_self a.magnitude.toRat_nonneg (by norm_num)).trans ha
  obtain ⟨b, hb, hnegative, hvalue⟩ :=
    exists_ofFloat?_div hx ofFloat?_three hpos (Ratio.nearest_lt_of_le hsmall)
  have hthree : three.negative = false := rfl
  rw [hthree, Bool.bne_false] at hnegative
  have hround := (a.quotient three hpos).abs_nearest_sub_le
  rw [hq, ← hvalue] at hround
  refine ⟨b, hb, ?_⟩
  rwa [a.abs_value, Dyadic.value, Dyadic.value, hnegative, ← signed_div, ← signed_sub, abs_signed]

/-! ### The exponent -/

theorem logb_two_le : logb 10 2 ≤ 3011 / 10000 := by
  have h := (abs_le.1 highNumber_add_lowNumber_near).1
  norm_num [highNumber, lowNumber] at h
  linarith

theorem Dyadic.Canonical.abs_logb_le {d : Dyadic} (hc : d.Canonical)
    (h0 : 0 < d.magnitude.toRat) : |logb 10 d.magnitude.toRat| ≤ 324 := by
  have hnum := Ratio.num_ne_zero h0
  obtain ⟨hleast, hmost⟩ := hc.binaryExponent_bounds h0
  obtain ⟨hlow, hhigh⟩ := Ratio.binaryExponent_spec hnum
  generalize d.magnitude.binaryExponent = k at hleast hmost hlow hhigh
  have hpow (j : ℤ) : logb 10 ((2 ^ j : ℚ) : ℝ) = j * logb 10 2 := by
    rw [Rat.cast_zpow, Rat.cast_ofNat, logb, Real.log_zpow, mul_div_assoc, logb]
  have hmono {a b : ℚ} (ha : 0 < a) (hab : a ≤ b) : logb 10 (a : ℝ) ≤ logb 10 (b : ℝ) :=
    Real.logb_le_logb_of_le (by norm_num) (by exact_mod_cast ha) (by exact_mod_cast hab)
  have hdown := hmono (zpow_pos two_pos k) hlow
  have hup := hmono h0 hhigh.le
  rw [hpow] at hdown hup
  have htwo := logb_two_ge
  have htwo' := logb_two_le
  have hk : (-1074 : ℝ) * logb 10 2 ≤ k * logb 10 2 :=
    mul_le_mul_of_nonneg_right (by exact_mod_cast hleast) (by linarith)
  have hk' : ((k + 1 : ℤ) : ℝ) * logb 10 2 ≤ 1024 * logb 10 2 :=
    mul_le_mul_of_nonneg_right (by exact_mod_cast hmost) (by linarith)
  rw [abs_le]
  constructor <;> linarith

/-- The exponent is three times the whole part of a number that is near the third of the
logarithm. -/
theorem exists_engineeringExponent_eq {log10 : Float → Float} (hlog : IsCommonLogarithm log10)
    {x : Float} {d : Dyadic} (hx : Dyadic.ofFloat? x = some d) (hm : 0 < d.mantissa) :
    ∃ w : ℚ, engineeringExponent log10 x = 3 * ⌊w⌋ ∧
      |(3 * w - logb 10 d.magnitude.toRat : ℝ)| ≤ 18 / 10 ^ 14 := by
  have h0 := Dyadic.magnitude_pos_iff.2 hm
  have hsize := (Dyadic.canonical_of_ofFloat? hx).abs_logb_le h0
  obtain ⟨l, hl, hnear⟩ := hlog ⟨_, Dyadic.ofFloat?_abs hx, rfl, rfl⟩ h0
  change |(l.value - logb 10 d.magnitude.toRat : ℝ)| ≤
    logarithmError * |logb 10 d.magnitude.toRat| at hnear
  rw [logarithmError_mul] at hnear
  have hlvalue : |(l.value : ℝ)| ≤ 325 := by
    have := abs_sub_abs_le_abs_sub (l.value : ℝ) (logb 10 d.magnitude.toRat)
    norm_num1 at hnear
    linarith
  obtain ⟨b, hb, hthird⟩ := exists_div_three hl (by
    norm_num1
    exact_mod_cast hlvalue.trans (by norm_num : (325 : ℝ) ≤ 9007199254740992))
  refine ⟨b.value, ?_, ?_⟩
  · rw [engineeringExponent, hb, ← b.floor_eq, mul_comm]
  · have hthird' := (Rat.cast_le (K := ℝ)).2
      (hthird.trans (add_le_add_right Ratio.half_least_le _))
    push_cast at hthird'
    rw [abs_le] at hthird' hnear ⊢
    norm_num1 at hthird' hnear ⊢
    constructor <;> linarith

/-- What a difference of logarithms says about numbers. -/
theorem mul_le_of_logb_le {a b : ℝ} (ha : 0 < a) (hb : 0 < b)
    (h : logb 10 a ≤ logb 10 b + 18 / 10 ^ 14) : a * (1 - 42 / 10 ^ 14) ≤ b := by
  have hten := (abs_le.1 log_ten_near).1
  norm_num1 at hten
  have hlogs : log a - 18 / 10 ^ 14 * log 10 ≤ log b := by
    rw [logb, logb, div_le_iff₀ log_ten_pos, add_mul, div_mul_cancel₀ _ log_ten_pos.ne'] at h
    linarith
  calc a * (1 - 42 / 10 ^ 14) ≤ a * Real.exp (-(18 / 10 ^ 14 * log 10)) := by
        refine mul_le_mul_of_nonneg_left ?_ ha.le
        have := Real.add_one_le_exp (-(18 / 10 ^ 14 * log 10))
        norm_num1 at this ⊢
        linarith
    _ = Real.exp (log a - 18 / 10 ^ 14 * log 10) := by
        rw [sub_eq_add_neg, Real.exp_add, Real.exp_log ha]
    _ ≤ Real.exp (log b) := Real.exp_le_exp.2 hlogs
    _ = b := Real.exp_log hb

/-- A number in the engineering format is not below its own power of a thousand, nor above the next
one, by more than the error of the exponent. -/
theorem engineeringExponent_spec {log10 : Float → Float} (hlog : IsCommonLogarithm log10)
    {x : Float} {d : Dyadic} (hx : Dyadic.ofFloat? x = some d) (hm : 0 < d.mantissa) :
    ∃ q : ℤ, engineeringExponent log10 x = 3 * q ∧
      10 ^ (3 * q) * (1 - 42 / 10 ^ 14) ≤ d.magnitude.toRat ∧
      d.magnitude.toRat * (1 - 42 / 10 ^ 14) ≤ 10 ^ (3 * q + 3) := by
  have h0 : (0 : ℝ) < d.magnitude.toRat := by exact_mod_cast Dyadic.magnitude_pos_iff.2 hm
  obtain ⟨w, hexponent, hnear⟩ := exists_engineeringExponent_eq hlog hx hm
  obtain ⟨hup, hdown⟩ := abs_le.1 hnear
  have hlow : ((⌊w⌋ : ℤ) : ℝ) ≤ w := by exact_mod_cast Int.floor_le w
  have hhigh : (w : ℝ) ≤ (⌊w⌋ : ℤ) + 1 := by exact_mod_cast (Int.lt_floor_add_one w).le
  have hpow (k : ℤ) : logb 10 ((10 : ℝ) ^ k) = k := by
    rw [← Real.rpow_intCast, Real.logb_rpow (by norm_num) (by norm_num)]
  have hpos (k : ℤ) : (0 : ℝ) < 10 ^ k := zpow_pos (by norm_num) k
  refine ⟨⌊w⌋, hexponent, ?_, ?_⟩
  · have hle := mul_le_of_logb_le (hpos (3 * ⌊w⌋)) h0 (by
      rw [hpow]
      push_cast
      linarith)
    rw [← Rat.cast_le (K := ℝ)]
    push_cast
    exact hle
  · have hle := mul_le_of_logb_le h0 (hpos (3 * ⌊w⌋ + 3)) (by
      rw [hpow]
      push_cast
      linarith)
    rw [← Rat.cast_le (K := ℝ)]
    push_cast
    exact hle

end PocketCalculator
