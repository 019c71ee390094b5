import PocketCalculator.Elementary.Exponential
import PocketCalculator.Proofs.Number.Rational
import Mathlib.Analysis.SpecialFunctions.Log.Base
import Mathlib.Analysis.SpecialFunctions.Log.Deriv

/-! # The error of the logarithm in fixed point

The sum behind the logarithm is off by four units of `2 ^ -scale` for each of its terms
(`abs_sumSeries_sub_le`): a power is never off by more than three units, because a factor of a
quarter at most makes up for what each step adds.  With the tail of the series and the rounding of
its argument, the logarithm of a ratio between one half and two is off by `8 * scale + 6` units
(`abs_reduced_sub_le`), and any other one by as many again for each factor of two that is taken out
(`abs_lnFixed_sub_le`). -/

namespace PocketCalculator

open Finset (range)

theorem cast_twoPow (k : ℕ) : (twoPow k : ℝ) = 2 ^ k :=
  Nat.cast_pow 2 k

/-! ### Rounded quotients -/

theorem abs_tdiv_sub_le (a : ℤ) {b : ℤ} (hb : 0 < b) : |((a.tdiv b : ℤ) : ℝ) - a / b| ≤ 1 := by
  have hbR : (0 : ℝ) < b := Int.cast_pos.2 hb
  have hdiv : (a : ℝ) = b * (a.tdiv b : ℤ) + (a.tmod b : ℤ) := by
    exact_mod_cast (Int.mul_tdiv_add_tmod a b).symm
  have hlow : -(b : ℝ) < (a.tmod b : ℤ) := by exact_mod_cast Int.lt_tmod_of_pos a hb
  have hhigh : ((a.tmod b : ℤ) : ℝ) < b := by exact_mod_cast Int.tmod_lt_of_pos a hb
  have hsub : ((a.tdiv b : ℤ) : ℝ) - a / b = -((a.tmod b : ℤ) / b) := by
    rw [hdiv]
    field_simp
    ring
  rw [hsub, abs_neg, abs_div, abs_of_pos hbR, div_le_one hbR, abs_le]
  exact ⟨hlow.le, hhigh.le⟩

/-! ### The series -/

/-- The sum of `p * w ^ (2 * i) / (2 * (n + i) + 1)` over the first `count` terms. -/
noncomputable def oddSum (w p : ℝ) (n count : ℕ) : ℝ :=
  ∑ i ∈ range count, p * w ^ (2 * i) / (2 * (n + i) + 1)

theorem oddSum_succ (w p : ℝ) (n count : ℕ) :
    oddSum w p n (count + 1) = p / (2 * n + 1) + oddSum w (p * w ^ 2) (n + 1) count := by
  rw [oddSum, Finset.sum_range_succ', add_comm, oddSum]
  congr 1
  · simp
  · refine Finset.sum_congr rfl fun i _ => ?_
    push_cast
    ring

theorem oddSum_mul (w c p : ℝ) (n count : ℕ) :
    oddSum w (c * p) n count = c * oddSum w p n count := by
  rw [oddSum, oddSum, Finset.mul_sum]
  exact Finset.sum_congr rfl fun i _ => by ring

theorem abs_oddSum_le {w p : ℝ} (hw : w ^ 2 ≤ 1) (n count : ℕ) :
    |oddSum w p n count| ≤ count * |p| := by
  induction count generalizing p n with
  | zero => simp [oddSum]
  | succ count ih =>
      have hfirst : |p / (2 * n + 1)| ≤ |p| := by
        rw [abs_div]
        exact div_le_self (abs_nonneg _) (by rw [abs_of_pos] <;> linarith [n.cast_nonneg (α := ℝ)])
      have hrest : |p * w ^ 2| ≤ |p| := by
        rw [abs_mul, abs_of_nonneg (sq_nonneg w)]
        exact mul_le_of_le_one_right (abs_nonneg _) hw
      calc |oddSum w p n (count + 1)|
          ≤ |p / (2 * n + 1)| + |oddSum w (p * w ^ 2) (n + 1) count| := by
            rw [oddSum_succ]
            exact abs_add_le _ _
        _ ≤ |p| + count * |p| :=
            add_le_add hfirst ((@ih (p * w ^ 2) (n + 1)).trans
              (mul_le_mul_of_nonneg_left hrest (Nat.cast_nonneg _)))
        _ = (count + 1 : ℕ) * |p| := by
            push_cast
            ring

section series

variable {scale : ℕ} {w : ℝ} {factor : ℤ}

/-- The factor of a series is the square of the argument, in units and rounded down; the argument is
at most one half, and the unit is small. -/
structure IsSquare (scale : ℕ) (w : ℝ) (factor : ℤ) : Prop where
  unit : (16 : ℝ) ≤ 2 ^ scale
  sq_le : w ^ 2 ≤ 1 / 4
  factor_le : (factor : ℝ) ≤ w ^ 2 * 2 ^ scale
  lt_factor : w ^ 2 * 2 ^ scale < factor + 1

/-- One step of the series keeps the power within three units. -/
theorem abs_power_sub_le (h : IsSquare scale w factor) {power : ℤ} {p : ℝ}
    (hp : |p| ≤ 2 ^ scale) (hpower : |(power : ℝ) - p| ≤ 3) :
    |(((power * factor).tdiv (twoPow scale * 1) : ℤ) : ℝ) - p * w ^ 2| ≤ 3 := by
  obtain ⟨hunit, hsq, hle, hlt⟩ := h
  have hu : (0 : ℝ) < 2 ^ scale := by positivity
  have hdiv := abs_tdiv_sub_le (power * factor)
    (by simpa using twoPow_pos scale : (0 : ℤ) < twoPow scale * 1)
  have hcast : (((twoPow scale : ℤ) * 1 : ℤ) : ℝ) = 2 ^ scale := by
    rw [mul_one, Int.cast_natCast, cast_twoPow]
  rw [hcast] at hdiv
  have hfactor : |(factor : ℝ) / 2 ^ scale - w ^ 2| ≤ 1 / 2 ^ scale := by
    rw [div_sub' hu.ne', abs_div, abs_of_pos hu]
    refine div_le_div_of_nonneg_right ?_ hu.le
    rw [abs_le]
    constructor <;> linarith
  have hsize : |(power : ℝ)| ≤ 2 ^ scale + 3 := by
    have := abs_sub_abs_le_abs_sub (power : ℝ) p
    linarith
  have hfirst : |power * ((factor : ℝ) / 2 ^ scale - w ^ 2)| ≤ 1 + 3 / 16 := by
    calc |power * ((factor : ℝ) / 2 ^ scale - w ^ 2)|
        ≤ (2 ^ scale + 3) * (1 / 2 ^ scale) := by
          rw [abs_mul]
          exact mul_le_mul hsize hfactor (abs_nonneg _) (by positivity)
      _ = 1 + 3 / 2 ^ scale := by
          field_simp
      _ ≤ 1 + 3 / 16 := by
          have := div_le_div_of_nonneg_left (by norm_num : (0 : ℝ) ≤ 3)
            (by norm_num : (0 : ℝ) < 16) hunit
          linarith
  have hsecond : |((power : ℝ) - p) * w ^ 2| ≤ 3 / 4 := by
    rw [abs_mul, abs_of_nonneg (sq_nonneg w)]
    calc |(power : ℝ) - p| * w ^ 2 ≤ 3 * (1 / 4) :=
          mul_le_mul hpower hsq (sq_nonneg w) (by norm_num)
      _ = 3 / 4 := by norm_num
  have hsplit : ((power * factor : ℤ) : ℝ) / 2 ^ scale - p * w ^ 2 =
      power * ((factor : ℝ) / 2 ^ scale - w ^ 2) + ((power : ℝ) - p) * w ^ 2 := by
    push_cast
    ring
  have htriangle := abs_add_le (power * ((factor : ℝ) / 2 ^ scale - w ^ 2))
    (((power : ℝ) - p) * w ^ 2)
  rw [← hsplit] at htriangle
  have := abs_sub_le (((power * factor).tdiv (twoPow scale * 1) : ℤ) : ℝ)
    (((power * factor : ℤ) : ℝ) / 2 ^ scale) (p * w ^ 2)
  linarith

theorem abs_term_sub_le (n : ℕ) {power : ℤ} {p : ℝ} (hpower : |(power : ℝ) - p| ≤ 3) :
    |((power.tdiv (2 * n + 1 : ℕ) : ℤ) : ℝ) - p / (2 * n + 1)| ≤ 4 := by
  have hodd : (0 : ℝ) < 2 * n + 1 := by positivity
  have hdiv := abs_tdiv_sub_le power (by positivity : (0 : ℤ) < (2 * n + 1 : ℕ))
  push_cast at hdiv
  have hrest : |(power : ℝ) / (2 * n + 1) - p / (2 * n + 1)| ≤ 3 := by
    rw [← sub_div, abs_div, abs_of_pos hodd]
    exact (div_le_self (abs_nonneg _) (by linarith [n.cast_nonneg (α := ℝ)])).trans hpower
  have := abs_sub_le ((power.tdiv (2 * n + 1 : ℕ) : ℤ) : ℝ) (power / (2 * n + 1)) (p / (2 * n + 1))
  push_cast at *
  linarith

/-- The sum of a series is off by four units for each term. -/
theorem abs_sumSeries_sub_le (h : IsSquare scale w factor) (fuel n : ℕ) {power : ℤ} {p : ℝ}
    (hp : |p| ≤ 2 ^ scale) (hpower : |(power : ℝ) - p| ≤ 3) (sum : ℤ) :
    |(sumSeries scale factor (fun _ => 1) (fun n => 2 * n + 1) fuel n power sum : ℝ) -
      (sum + oddSum w p n fuel)| ≤ 4 * fuel := by
  have hw : w ^ 2 ≤ 1 := h.sq_le.trans (by norm_num)
  induction fuel generalizing n power p sum with
  | zero => simp [sumSeries, oddSum]
  | succ fuel ih =>
      rw [sumSeries]
      split
      · -- a power that has vanished leaves terms of three units at most
        rename_i hzero
        rw [hzero, Int.cast_zero, zero_sub, abs_neg] at hpower
        have hrest := abs_oddSum_le (p := p) hw n (fuel + 1)
        have : ((fuel + 1 : ℕ) : ℝ) * |p| ≤ (fuel + 1 : ℕ) * 3 :=
          mul_le_mul_of_nonneg_left hpower (Nat.cast_nonneg _)
        rw [sub_add_cancel_left, abs_neg]
        push_cast at *
        linarith
      · have hnext : |p * w ^ 2| ≤ 2 ^ scale := by
          rw [abs_mul, abs_of_nonneg (sq_nonneg w)]
          exact (mul_le_of_le_one_right (abs_nonneg _) hw).trans hp
        have hterm := abs_term_sub_le n hpower
        have hsum := ih (n + 1) hnext (abs_power_sub_le h hp hpower)
          (sum + power.tdiv (2 * n + 1 : ℕ))
        generalize sumSeries scale factor _ _ fuel (n + 1) _ _ = total at hsum ⊢
        have hsplit : (total : ℝ) - (sum + oddSum w p n (fuel + 1)) =
            (total - ((sum + power.tdiv (2 * n + 1 : ℕ) : ℤ) + oddSum w (p * w ^ 2) (n + 1) fuel)) +
              ((power.tdiv (2 * n + 1 : ℕ) : ℤ) - p / (2 * n + 1)) := by
          rw [oddSum_succ]
          push_cast
          ring
        have htriangle := abs_add_le
          ((total : ℝ) -
            ((sum + power.tdiv (2 * n + 1 : ℕ) : ℤ) + oddSum w (p * w ^ 2) (n + 1) fuel))
          ((power.tdiv (2 * n + 1 : ℕ) : ℤ) - p / (2 * n + 1))
        rw [← hsplit] at htriangle
        push_cast at *
        linarith

end series

/-! ### The logarithm of a number between one half and two -/

/-- What the first `count` terms leave out of the series. -/
theorem abs_log_sub_oddSum_le {w : ℝ} (hw : |w| ≤ 1 / 2) (count : ℕ) :
    |Real.log (1 + w) - Real.log (1 - w) - 2 * oddSum w w 0 count| ≤ 4 / 3 * (1 / 4) ^ count := by
  have hseries := Real.hasSum_log_sub_log_of_abs_lt_one (show |w| < 1 by linarith)
  have htail := (hasSum_nat_add_iff' count).2 hseries
  have hgeometric : HasSum (fun k : ℕ => (1 / 4 : ℝ) ^ count * (1 / 4) ^ k)
      ((1 / 4) ^ count * (1 - 1 / 4)⁻¹) :=
    (hasSum_geometric_of_lt_one (by norm_num) (by norm_num)).mul_left _
  have hbound (k : ℕ) :
      ‖(2 : ℝ) * (1 / (2 * ((k + count : ℕ) : ℝ) + 1)) * w ^ (2 * (k + count) + 1)‖ ≤
        (1 / 4) ^ count * (1 / 4) ^ k := by
    have hinv : (1 : ℝ) / (2 * ((k + count : ℕ) : ℝ) + 1) ≤ 1 := by
      rw [div_le_one (by positivity)]
      linarith [(k + count).cast_nonneg (α := ℝ)]
    have hpow : |w| ^ (2 * (k + count) + 1) ≤ (1 / 2) ^ (2 * (k + count) + 1) :=
      pow_le_pow_left₀ (abs_nonneg _) hw _
    rw [Real.norm_eq_abs, abs_mul, abs_mul, abs_of_pos (by positivity : (0 : ℝ) < 2),
      abs_of_pos (by positivity : (0 : ℝ) < 1 / (2 * ((k + count : ℕ) : ℝ) + 1)), abs_pow]
    calc 2 * (1 / (2 * ((k + count : ℕ) : ℝ) + 1)) * |w| ^ (2 * (k + count) + 1)
        ≤ 2 * 1 * (1 / 2) ^ (2 * (k + count) + 1) :=
          mul_le_mul (mul_le_mul_of_nonneg_left hinv (by norm_num)) hpow (by positivity)
            (by norm_num)
      _ = (1 / 4) ^ count * (1 / 4) ^ k := by
          rw [← pow_add, pow_succ, pow_mul, Nat.add_comm k]
          norm_num
          ring
  have hle := htail.norm_le_of_bounded hgeometric hbound
  have hsum : ∑ i ∈ range count, (2 : ℝ) * (1 / (2 * (i : ℝ) + 1)) * w ^ (2 * i + 1) =
      2 * oddSum w w 0 count := by
    rw [oddSum, Finset.mul_sum]
    refine Finset.sum_congr rfl fun i _ => ?_
    rw [pow_succ]
    push_cast
    ring
  rw [hsum, Real.norm_eq_abs] at hle
  linarith

theorem ediv_bounds (a : ℤ) {b : ℤ} (hb : 0 < b) :
    ((a / b : ℤ) : ℝ) ≤ a / b ∧ (a : ℝ) / b < (a / b : ℤ) + 1 := by
  have hbR : (0 : ℝ) < b := Int.cast_pos.2 hb
  constructor
  · rw [le_div_iff₀ hbR]
    exact_mod_cast Int.ediv_mul_le a hb.ne'
  · rw [div_lt_iff₀ hbR]
    exact_mod_cast Int.lt_ediv_add_one_mul_self a hb

theorem sixteen_le {scale : ℕ} (h : 4 ≤ scale) : (16 : ℝ) ≤ 2 ^ scale := by
  calc (16 : ℝ) = 2 ^ 4 := by norm_num
    _ ≤ 2 ^ scale := pow_le_pow_right₀ one_le_two h

theorem isSquare_fixed {scale : ℕ} {z : ℤ} (hscale : 4 ≤ scale)
    (hz : |(z : ℝ) / 2 ^ scale| ≤ 1 / 2) :
    IsSquare scale (z / 2 ^ scale) (z * z / (twoPow scale : ℤ)) := by
  have hu : (0 : ℝ) < 2 ^ scale := by positivity
  have hb : (0 : ℤ) < twoPow scale := by exact_mod_cast twoPow_pos scale
  have hdiv := ediv_bounds (z * z) hb
  have hsquare : ((z : ℝ) / 2 ^ scale) ^ 2 * 2 ^ scale = (z * z : ℤ) / (twoPow scale : ℤ) := by
    rw [Int.cast_natCast, cast_twoPow]
    push_cast
    field_simp
  refine ⟨sixteen_le hscale, ?_, hsquare ▸ hdiv.1, hsquare ▸ hdiv.2⟩
  rw [← sq_abs]
  calc |(z : ℝ) / 2 ^ scale| ^ 2 ≤ (1 / 2) ^ 2 := pow_le_pow_left₀ (abs_nonneg _) hz 2
    _ = 1 / 4 := by norm_num

/-- Twice the sum in fixed point is the difference of two logarithms, up to eight units for each
term. -/
theorem abs_artanhFixed_sub_le {scale : ℕ} {z : ℤ} (hscale : 4 ≤ scale)
    (hz : |(z : ℝ) / 2 ^ scale| ≤ 1 / 2) :
    |(2 * artanhFixed scale z : ℝ) -
      2 ^ scale * (Real.log (1 + z / 2 ^ scale) - Real.log (1 - z / 2 ^ scale))| ≤
        8 * scale + 2 := by
  have hu : (0 : ℝ) < 2 ^ scale := by positivity
  have hsquare := isSquare_fixed hscale hz
  have htail := abs_log_sub_oddSum_le hz scale
  have hsize : |(z : ℝ)| ≤ 2 ^ scale := by
    rw [abs_div, abs_of_pos hu, div_le_iff₀ hu] at hz
    linarith
  have hsum := abs_sumSeries_sub_le hsquare scale 0 hsize (by simp : |(z : ℝ) - z| ≤ 3) 0
  change |(artanhFixed scale z : ℝ) - _| ≤ _ at hsum
  have hlinear : oddSum (z / 2 ^ scale) z 0 scale =
      2 ^ scale * oddSum (z / 2 ^ scale) (z / 2 ^ scale) 0 scale := by
    rw [← oddSum_mul, mul_div_cancel₀ _ hu.ne']
  rw [hlinear, Int.cast_zero, zero_add] at hsum
  generalize oddSum (z / 2 ^ scale) (z / 2 ^ scale) 0 scale = total at hsum htail
  generalize Real.log (1 + z / 2 ^ scale) - Real.log (1 - z / 2 ^ scale) = exact at htail ⊢
  have htail' : |2 ^ scale * (exact - 2 * total)| ≤ 2 := by
    rw [abs_mul, abs_of_pos hu]
    calc 2 ^ scale * |exact - 2 * total| ≤ 2 ^ scale * (4 / 3 * (1 / 4) ^ scale) :=
          mul_le_mul_of_nonneg_left htail hu.le
      _ = 4 / 3 * (1 / 2) ^ scale := by
          rw [mul_left_comm, ← mul_pow]
          norm_num
      _ ≤ 4 / 3 * 1 :=
          mul_le_mul_of_nonneg_left (pow_le_one₀ (by norm_num) (by norm_num)) (by norm_num)
      _ ≤ 2 := by norm_num
  rw [abs_le] at hsum htail' ⊢
  constructor <;> linarith

theorem log_sub_log_le {a b : ℝ} (hb : 1 / 2 ≤ b) (hba : b ≤ a) :
    0 ≤ Real.log a - Real.log b ∧ Real.log a - Real.log b ≤ 2 * (a - b) := by
  have hbpos : 0 < b := by linarith
  have hapos : 0 < a := by linarith
  refine ⟨sub_nonneg.2 (Real.log_le_log hbpos hba), ?_⟩
  rw [← Real.log_div hapos.ne' hbpos.ne']
  calc Real.log (a / b) ≤ a / b - 1 := Real.log_le_sub_one_of_pos (div_pos hapos hbpos)
    _ = (a - b) / b := by rw [sub_div, div_self hbpos.ne']
    _ ≤ 2 * (a - b) := by
        rw [div_le_iff₀ hbpos]
        have := mul_le_mul_of_nonneg_left hb (by linarith : 0 ≤ 2 * (a - b))
        linarith

theorem log_div_eq {a b : ℝ} (ha : 0 < a) (hb : 0 < b) :
    Real.log (a / b) = Real.log (1 + (a - b) / (a + b)) - Real.log (1 - (a - b) / (a + b)) := by
  have hsum : a + b ≠ 0 := by linarith
  have hplus : 1 + (a - b) / (a + b) = 2 * a / (a + b) := by
    field_simp
    ring
  have hminus : 1 - (a - b) / (a + b) = 2 * b / (a + b) := by
    field_simp
    ring
  rw [hplus, hminus, ← Real.log_div (by positivity) (by positivity), div_div_div_cancel_right₀ hsum,
    mul_div_mul_left _ _ two_ne_zero]

theorem abs_sub_div_add_le {a b : ℝ} (ha : 0 < a) (hb : 0 < b) (hlow : b ≤ 2 * a)
    (hhigh : a ≤ 2 * b) : |(a - b) / (a + b)| ≤ 1 / 3 := by
  rw [abs_div, abs_of_pos (by linarith : 0 < a + b), div_le_iff₀ (by linarith), abs_le]
  constructor <;> linarith

/-- The logarithm of a ratio between one half and two, in fixed point. -/
theorem abs_reduced_sub_le {scale num den : ℕ} (hscale : 4 ≤ scale) (hden : 0 < den)
    (hlow : den ≤ 2 * num) (hhigh : num ≤ 2 * den) :
    |(2 * artanhFixed scale (((num : ℤ) - den) * twoPow scale / (num + den)) : ℝ) -
      2 ^ scale * Real.log (num / den)| ≤ 8 * scale + 6 := by
  have hu : (0 : ℝ) < 2 ^ scale := by positivity
  have hnumR : (0 : ℝ) < num := Nat.cast_pos.2 (by omega)
  have hdenR : (0 : ℝ) < den := Nat.cast_pos.2 hden
  have hdiv := ediv_bounds (((num : ℤ) - den) * twoPow scale) (by omega : (0 : ℤ) < num + den)
  generalize ((num : ℤ) - den) * twoPow scale / (num + den) = z at hdiv ⊢
  have hratio : ((((num : ℤ) - den) * twoPow scale : ℤ) : ℝ) / ((num + den : ℤ) : ℝ) =
      (num - den) / (num + den) * 2 ^ scale := by
    push_cast
    rw [cast_twoPow, mul_div_right_comm]
  rw [hratio, ← div_le_iff₀ hu, ← lt_div_iff₀ hu, add_div] at hdiv
  obtain ⟨hvlow, hvhigh⟩ := abs_le.1 (abs_sub_div_add_le hnumR hdenR (by exact_mod_cast hlow)
    (by exact_mod_cast hhigh))
  rw [log_div_eq hnumR hdenR]
  generalize ((num : ℝ) - den) / (num + den) = v at hdiv hvlow hvhigh ⊢
  have hsmall : 1 / 2 ^ scale ≤ (1 / 16 : ℝ) :=
    div_le_div_of_nonneg_left one_pos.le (by norm_num) (sixteen_le hscale)
  have hz : |(z : ℝ) / 2 ^ scale| ≤ 1 / 2 := by
    rw [abs_le]
    constructor <;> linarith
  have hfixed := abs_artanhFixed_sub_le hscale hz
  generalize (z : ℝ) / 2 ^ scale = w at hdiv hz hfixed
  have hplus := @log_sub_log_le (1 + v) (1 + w) (by linarith [(abs_le.1 hz).1]) (by linarith)
  have hminus := @log_sub_log_le (1 - w) (1 - v) (by linarith) (by linarith)
  have hgap : |2 ^ scale * (Real.log (1 + w) - Real.log (1 - w)) -
      2 ^ scale * (Real.log (1 + v) - Real.log (1 - v))| ≤ 4 := by
    have hfour : (4 : ℝ) / 2 ^ scale = 4 * (1 / 2 ^ scale) := div_eq_mul_one_div _ _
    rw [← mul_sub, abs_mul, abs_of_pos hu, ← le_div_iff₀' hu, hfour, abs_le]
    constructor <;> linarith
  have := abs_sub_le (2 * artanhFixed scale z : ℝ)
    (2 ^ scale * (Real.log (1 + w) - Real.log (1 - w)))
    (2 ^ scale * (Real.log (1 + v) - Real.log (1 - v)))
  linarith

theorem abs_lnTwoFixed_sub_le {scale : ℕ} (hscale : 4 ≤ scale) :
    |(lnTwoFixed scale : ℝ) - 2 ^ scale * Real.log 2| ≤ 8 * scale + 6 := by
  have h := @abs_reduced_sub_le scale 2 1 hscale (by norm_num) (by norm_num) (by norm_num)
  norm_num at h
  rw [lnTwoFixed]
  push_cast
  exact h

/-! ### Any logarithm -/

/-- What `lnFixed` takes out: a power of two that leaves a ratio between one half and two. -/
theorem exists_lnFixed_eq (scale : ℕ) {r : Ratio} (hr : r.num ≠ 0) :
    ∃ (k : ℤ) (y : Ratio), r.toRat = y.toRat * 2 ^ k ∧ 1 / 2 ≤ y.toRat ∧ y.toRat ≤ 2 ∧
      |k| ≤ |r.binaryExponent| + 1 ∧ lnFixed scale r =
        2 * artanhFixed scale (((y.num : ℤ) - y.den) * twoPow scale / (y.num + y.den)) +
          k * lnTwoFixed scale := by
  obtain ⟨hlow, hhigh⟩ := Ratio.binaryExponent_spec hr
  have hpos : (0 : ℚ) < 2 ^ r.binaryExponent := zpow_pos two_pos _
  generalize hy : r.mulTwoPow (-r.binaryExponent) = y
  have hvalue : r.toRat = y.toRat * 2 ^ r.binaryExponent := by
    rw [← hy, Ratio.toRat_mulTwoPow, mul_assoc, ← zpow_add₀ two_ne_zero, neg_add_cancel, zpow_zero,
      mul_one]
  have hone : 1 ≤ y.toRat := by
    rw [hvalue] at hlow
    exact (le_mul_iff_one_le_left hpos).1 hlow
  have htwo : y.toRat < 2 := by
    rw [hvalue, zpow_add_one₀ two_ne_zero, mul_comm _ (2 : ℚ)] at hhigh
    exact lt_of_mul_lt_mul_right hhigh hpos.le
  by_cases hsplit : (⟨3, 2, by decide⟩ : Ratio).le y = true
  · refine ⟨r.binaryExponent + 1, y.mulTwoPow (-1), ?_, ?_, ?_, ?_, ?_⟩
    · rw [Ratio.toRat_mulTwoPow, hvalue, mul_assoc, ← zpow_add₀ two_ne_zero,
        neg_add_cancel_comm_assoc]
    · rw [Ratio.toRat_mulTwoPow, zpow_neg_one]
      linarith
    · rw [Ratio.toRat_mulTwoPow, zpow_neg_one]
      linarith
    · exact abs_add_le _ _
    · simp only [lnFixed, hy, if_pos hsplit]
  · refine ⟨r.binaryExponent, y, hvalue, by linarith, htwo.le, by omega, ?_⟩
    simp only [lnFixed, hy, if_neg hsplit]

/-- The logarithm of a ratio in fixed point is off by so many units for each factor of two. -/
theorem abs_lnFixed_sub_le {scale : ℕ} {r : Ratio} (hscale : 4 ≤ scale) (hr : r.num ≠ 0) :
    |(lnFixed scale r : ℝ) - 2 ^ scale * Real.log r.toRat| ≤
      (|r.binaryExponent| + 2 : ℤ) * (8 * scale + 6) := by
  obtain ⟨k, y, hvalue, hlow, hhigh, hk, heq⟩ := exists_lnFixed_eq scale hr
  have hdenQ := y.den_cast_pos
  have hnumQ : (0 : ℚ) < y.num := by
    rw [← y.toRat_mul_den]
    exact mul_pos (by linarith) hdenQ
  have hlow' : y.den ≤ 2 * y.num := by
    have := mul_le_mul_of_nonneg_right hlow hdenQ.le
    rw [y.toRat_mul_den] at this
    exact_mod_cast (by linarith : (y.den : ℚ) ≤ 2 * y.num)
  have hhigh' : y.num ≤ 2 * y.den := by
    have := mul_le_mul_of_nonneg_right hhigh hdenQ.le
    rw [y.toRat_mul_den] at this
    exact_mod_cast this
  have hreduced := abs_reduced_sub_le hscale y.den_pos hlow' hhigh'
  have htwo := abs_lnTwoFixed_sub_le hscale
  have hlog : Real.log (r.toRat : ℝ) = Real.log (y.num / y.den) + k * Real.log 2 := by
    have hy : ((y.toRat : ℚ) : ℝ) = y.num / y.den := by
      rw [Ratio.toRat]
      push_cast
      rfl
    have hypos : (0 : ℝ) < y.num / y.den :=
      div_pos (by exact_mod_cast hnumQ) (by exact_mod_cast hdenQ)
    rw [hvalue, Rat.cast_mul, hy, Rat.cast_zpow, Rat.cast_ofNat,
      Real.log_mul hypos.ne' (zpow_pos two_pos k).ne', Real.log_zpow]
  have hk' : |(k : ℝ)| ≤ (|r.binaryExponent| + 1 : ℤ) := by exact_mod_cast hk
  rw [heq, hlog]
  generalize Real.log (y.num / y.den) = logY at hreduced ⊢
  generalize artanhFixed scale _ = sum at hreduced ⊢
  have hsplit : ((2 * sum + k * lnTwoFixed scale : ℤ) : ℝ) - 2 ^ scale * (logY + k * Real.log 2) =
      ((2 * sum : ℝ) - 2 ^ scale * logY) + k * (lnTwoFixed scale - 2 ^ scale * Real.log 2) := by
    push_cast
    ring
  rw [hsplit]
  calc |((2 * sum : ℝ) - 2 ^ scale * logY) + k * (lnTwoFixed scale - 2 ^ scale * Real.log 2)|
      ≤ |(2 * sum : ℝ) - 2 ^ scale * logY| +
          |(k : ℝ)| * |lnTwoFixed scale - 2 ^ scale * Real.log 2| := by
        rw [← abs_mul]
        exact abs_add_le _ _
    _ ≤ (8 * scale + 6) + (|r.binaryExponent| + 1 : ℤ) * (8 * scale + 6) :=
        add_le_add hreduced (mul_le_mul hk' htwo (abs_nonneg _) (by positivity))
    _ = (|r.binaryExponent| + 2 : ℤ) * (8 * scale + 6) := by
        push_cast
        ring

end PocketCalculator
