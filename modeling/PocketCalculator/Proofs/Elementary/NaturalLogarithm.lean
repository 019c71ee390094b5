import PocketCalculator.Proofs.Elementary.Logarithm
import PocketCalculator.Proofs.Number.Arithmetic
import Mathlib.Analysis.Complex.ExponentialBounds

/-! # The natural logarithm of a double

The logarithm of a double next to one is small, but not below `2 ^ -54` (`two_pow_le_abs_log`), and
the fixed point is far finer than that.  So between one half and two the double that is computed is
off by one rounding, and by next to nothing beside it: `exists_holds_lnDouble`. -/

namespace PocketCalculator

open Real (log)

/-! ### What is rounded -/

/-- The double nearest to an enclosed number is rounded from the lower end of one of the
enclosures. -/
theorem exists_nearestDouble_eq (enclose : Nat → Enclosure) : ∃ p : ℕ, 128 ≤ p ∧ p ≤ 1024 ∧
    nearestDouble enclose = Enclosure.endpoint (enclose p).lower (enclose p).scale := by
  rw [nearestDouble]
  split
  · rename_i x hfound
    obtain ⟨p, hp, hx⟩ := List.exists_of_findSome?_eq_some hfound
    simp only [List.mem_cons, List.not_mem_nil, or_false] at hp
    refine ⟨p, by omega, by omega, ?_⟩
    rw [Enclosure.toFloat?] at hx
    split at hx
    · exact (Option.some.inj hx).symm
    · cases hx
  · exact ⟨1024, by norm_num, le_rfl, rfl⟩

theorem holds_abs_endpoint {n s : ℤ} {a : ℚ} (ha : |(n : ℚ)| * 2 ^ (-s) = a) (hle : a ≤ 2 ^ 53) :
    Holds (Enclosure.endpoint n s).abs (nearestTo a) := by
  have hvalue : ((Ratio.ofNat n.natAbs).mulTwoPow (-s)).toRat = a := by
    rw [Ratio.toRat_mulTwoPow, Ratio.toRat_ofNat, Nat.cast_natAbs, Int.cast_abs, ha]
  have hnonneg : 0 ≤ a := hvalue ▸ Ratio.toRat_nonneg _
  exact holds_abs_toFloat hvalue (nearestTo_lt_infinity hnonneg hle) _

/-! ### Logarithms next to one -/

theorem half_le_abs_log {m : ℝ} (hpos : 0 < m) (hhigh : m ≤ 2) : |m - 1| / 2 ≤ |log m| := by
  have hup := Real.log_le_sub_one_of_pos hpos
  rcases le_total m 1 with hle | hge
  · rw [abs_of_nonpos (by linarith : m - 1 ≤ 0), abs_of_nonpos (Real.log_nonpos hpos.le hle)]
    linarith
  · rw [abs_of_nonneg (by linarith : 0 ≤ m - 1), abs_of_nonneg (Real.log_nonneg hge)]
    have hdown := Real.one_sub_inv_le_log_of_pos hpos
    have hhalf : (m - 1) / 2 ≤ (m - 1) / m :=
      div_le_div_of_nonneg_left (by linarith) hpos hhigh
    have hsplit : (m - 1) / m = 1 - m⁻¹ := by
      rw [sub_div, div_self hpos.ne', one_div]
    linarith

/-- No double but one is closer to one than `2 ^ -53`. -/
theorem IsRepresentable.le_abs_sub_one {m : ℚ} (hm : IsRepresentable m) (hlow : 1 / 2 ≤ m)
    (hne : m ≠ 1) : 1 / 2 ^ 53 ≤ |m - 1| := by
  obtain ⟨n, rfl⟩ | ⟨-, hle⟩ := @IsRepresentable.multiple_or_le m hm (-53)
  · have hone : (n : ℚ) * 2 ^ (-53 : ℤ) - 1 = ((n - 2 ^ 53 : ℤ) : ℚ) / 2 ^ 53 := by
      norm_num
      ring
    have hdistance : 1 ≤ |(n - 2 ^ 53 : ℤ)| := by
      refine Int.one_le_abs fun h0 => hne ?_
      rw [← sub_eq_zero, hone, h0, Int.cast_zero, zero_div]
    rw [hone, abs_div, abs_of_pos (by norm_num : (0 : ℚ) < 2 ^ 53)]
    exact div_le_div_of_nonneg_right (by exact_mod_cast hdistance) (by norm_num)
  · norm_num1 at hle
    obtain rfl : m = 1 / 2 := le_antisymm hle hlow
    norm_num

theorem two_pow_le_abs_log {m : ℚ} (hm : IsRepresentable m) (hlow : 1 / 2 ≤ m) (hhigh : m ≤ 2)
    (hne : m ≠ 1) : (1 : ℝ) / 2 ^ 54 ≤ |log m| := by
  have hdistance : ((1 / 2 ^ 53 : ℚ) : ℝ) ≤ ((|m - 1| : ℚ) : ℝ) :=
    Rat.cast_le.2 (hm.le_abs_sub_one hlow hne)
  have hpos : (0 : ℝ) < m := by exact_mod_cast (by linarith : 0 < m)
  have hhalf := half_le_abs_log hpos (by exact_mod_cast hhigh)
  push_cast at hdistance
  norm_num1 at hdistance ⊢
  linarith

theorem abs_log_le_log_two {m : ℚ} (hlow : 1 / 2 ≤ m) (hhigh : m ≤ 2) : |log m| ≤ log 2 := by
  have hpos : (0 : ℝ) < m := by exact_mod_cast (by linarith : 0 < m)
  have hinv : (m : ℝ)⁻¹ ≤ 2 := by
    exact_mod_cast (inv_le_comm₀ (by linarith) two_pos).2 (by linarith : (2 : ℚ)⁻¹ ≤ m)
  have hup := Real.log_le_log hpos (by exact_mod_cast hhigh : (m : ℝ) ≤ 2)
  have hdown := Real.log_le_log (inv_pos.2 hpos) hinv
  rw [Real.log_inv] at hdown
  rw [abs_le]
  exact ⟨by linarith, hup⟩

/-! ### From fixed point to doubles -/

theorem abs_binaryExponent_le {r : Ratio} (hlow : 1 / 2 ≤ r.toRat) (hhigh : r.toRat ≤ 2) :
    |r.binaryExponent| ≤ 1 := by
  have hr : r.num ≠ 0 := Ratio.num_ne_zero (by linarith)
  have hup : r.binaryExponent < 2 := by
    rw [Ratio.binaryExponent_lt_iff hr]
    norm_num
    linarith
  have hdown : -1 ≤ r.binaryExponent := by
    rw [Ratio.le_binaryExponent_iff hr]
    norm_num
    linarith
  rw [abs_le]
  omega

/-- The lower end of an enclosure of the logarithm of a number between one half and two. -/
theorem abs_lnFixed_sub_slack_le {scale : ℕ} {r : Ratio} (hscale : 4 ≤ scale)
    (hmost : scale ≤ 2 ^ 20) (hlow : 1 / 2 ≤ r.toRat) (hhigh : r.toRat ≤ 2) :
    |((lnFixed scale r - slack : ℤ) : ℝ) - 2 ^ scale * log r.toRat| ≤ 2 ^ 33 := by
  have hr : r.num ≠ 0 := Ratio.num_ne_zero (by linarith)
  have hexponent : ((|r.binaryExponent| + 2 : ℤ) : ℝ) ≤ 3 := by
    have := abs_binaryExponent_le hlow hhigh
    exact_mod_cast (by omega : |r.binaryExponent| + 2 ≤ 3)
  have hsum := (abs_lnFixed_sub_le hscale hr).trans
    (mul_le_mul_of_nonneg_right hexponent (by positivity))
  have hscale : (scale : ℝ) ≤ 2 ^ 20 := by exact_mod_cast hmost
  have hslack : (slack : ℝ) = 2 ^ 32 := cast_twoPow 32
  push_cast
  rw [hslack]
  rw [abs_le] at hsum ⊢
  norm_num1 at hscale ⊢
  constructor <;> linarith

theorem abs_cast_nearestTo_sub_le {a : ℚ} (ha : 0 ≤ a) :
    |(nearestTo a - a : ℝ)| ≤ a / 2 ^ 53 + 1 / 2 ^ 200 := by
  have h := (abs_nearestTo_sub_le_self ha).trans
    (add_le_add_right Ratio.half_least_le (a / 2 ^ 53))
  have hcast := (Rat.cast_le (K := ℝ)).2 h
  push_cast at hcast
  exact hcast

theorem abs_fixed_sub_le {n : ℤ} {scale : ℕ} {l : ℝ} (hscale : 192 ≤ scale)
    (hn : |(n : ℝ) - 2 ^ scale * l| ≤ 2 ^ 33) {a : ℚ} (ha : |(n : ℚ)| * 2 ^ (-(scale : ℤ)) = a) :
    |(a - |l| : ℝ)| ≤ 1 / 2 ^ 159 := by
  have hunit : (0 : ℝ) < 2 ^ scale := by positivity
  have hsplit : (a : ℝ) - |l| = (|(n : ℝ)| - |2 ^ scale * l|) / 2 ^ scale := by
    rw [← ha, abs_mul, abs_of_pos hunit, sub_div, mul_div_cancel_left₀ _ hunit.ne']
    push_cast
    rw [zpow_neg, zpow_natCast, div_eq_mul_inv]
  calc |(a - |l| : ℝ)| = |(|(n : ℝ)| - |2 ^ scale * l|)| / 2 ^ scale := by
        rw [hsplit, abs_div, abs_of_pos hunit]
    _ ≤ 2 ^ 33 / 2 ^ scale :=
        div_le_div_of_nonneg_right ((abs_abs_sub_abs_le_abs_sub _ _).trans hn) hunit.le
    _ ≤ 2 ^ 33 / 2 ^ 192 :=
        div_le_div_of_nonneg_left (by norm_num) (by norm_num)
          (pow_le_pow_right₀ one_le_two hscale)
    _ = 1 / 2 ^ 159 := by norm_num

/-- Next to the rounding of a number that is not too small, an error before it is lost. -/
theorem abs_nearestTo_sub_le_of_near {a : ℚ} {l : ℝ} (ha : 0 ≤ a) (hl : 1 / 2 ^ 54 ≤ l)
    (hnear : |(a : ℝ) - l| ≤ 1 / 2 ^ 159) :
    |(nearestTo a : ℝ) - l| ≤ (1 / 2 ^ 53 + 1 / 2 ^ 90) * l := by
  have hround := abs_cast_nearestTo_sub_le ha
  have htriangle := abs_sub_le (nearestTo a : ℝ) a l
  have hup := (abs_le.1 hnear).2
  norm_num1 at hl hnear hround hup ⊢
  linarith

theorem exists_holds_abs_endpoint {n : ℤ} {scale : ℕ} {l : ℝ} (hscale : 192 ≤ scale)
    (hlow : 1 / 2 ^ 54 ≤ |l|) (hhigh : |l| ≤ 1) (hn : |(n : ℝ) - 2 ^ scale * l| ≤ 2 ^ 33) :
    ∃ v, Holds (Enclosure.endpoint n scale).abs v ∧
      |(v - |l| : ℝ)| ≤ (1 / 2 ^ 53 + 1 / 2 ^ 90) * |l| := by
  have hnonneg : (0 : ℚ) ≤ |(n : ℚ)| * 2 ^ (-(scale : ℤ)) := by positivity
  generalize ha : |(n : ℚ)| * 2 ^ (-(scale : ℤ)) = a at hnonneg
  have hnear := abs_fixed_sub_le hscale hn ha
  have hle : a ≤ 2 ^ 53 := by
    have hup := (abs_le.1 hnear).2
    norm_num1 at hup
    exact_mod_cast (by norm_num1; linarith : (a : ℝ) ≤ 2 ^ 53)
  exact ⟨_, holds_abs_endpoint ha hle, abs_nearestTo_sub_le_of_near hnonneg hlow hnear⟩

/-- The logarithm of a double between one half and two. -/
theorem exists_holds_lnDouble {x : Float} {m : ℚ} (hx : Holds x m) (hlow : 1 / 2 ≤ m)
    (hhigh : m ≤ 2) : ∃ v, Holds (lnDouble x).abs v ∧
      |(v - |log m| : ℝ)| ≤ (1 / 2 ^ 53 + 1 / 2 ^ 90) * |log m| := by
  have hone := hx.beq_iff holds_one
  obtain ⟨d, hd, -, hvalue⟩ := id hx
  rw [lnDouble, hd]
  dsimp only
  by_cases hm : m = 1
  · rw [if_pos (hone.2 hm), hm]
    exact ⟨0, holds_zero.abs, by simp⟩
  · rw [if_neg (mt hone.1 hm)]
    obtain ⟨p, hp, hp', heq⟩ := exists_nearestDouble_eq fun p =>
      .around (lnFixed (p + guardBits) d.magnitude) slack (p + guardBits : ℕ)
    have hguard : guardBits = 64 := rfl
    have hfixed := @abs_lnFixed_sub_slack_le (p + guardBits) d.magnitude (by omega) (by omega)
      (by rwa [hvalue]) (by rwa [hvalue])
    rw [hvalue] at hfixed
    rw [heq]
    exact exists_holds_abs_endpoint (by omega)
      (two_pow_le_abs_log hx.isRepresentable hlow hhigh hm)
      ((abs_log_le_log_two hlow hhigh).trans (Real.log_two_lt_d9.le.trans (by norm_num))) hfixed

end PocketCalculator
