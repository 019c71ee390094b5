import PocketCalculator.Proofs.Elementary.NaturalLogarithm

/-! # Common logarithms

A common logarithm of doubles may be off by two units in the last place (`IsCommonLogarithm`).  The
one that is computed here keeps within this bound (`isCommonLogarithm_log10Double`): what is taken
out as a power of two is added without a rounding of its own, and where nothing is taken out there
are two roundings only. -/

namespace PocketCalculator

open Real (log logb)

/-- Two units in the last place are one part in `2 ^ 51` at most. -/
def logarithmError : ℚ :=
  1 / 2 ^ 51

/-- A function on doubles that gives the common logarithm of a number above zero with at most this
error. -/
def IsCommonLogarithm (log10 : Float → Float) : Prop :=
  ∀ {x : Float} {a : ℚ}, Holds x a → 0 < a → ∃ l, Dyadic.ofFloat? (log10 x) = some l ∧
    |(l.value - logb 10 a : ℝ)| ≤ logarithmError * |logb 10 a|

theorem logarithmError_mul (r : ℝ) : logarithmError * r = r / 2 ^ 51 := by
  rw [logarithmError]
  push_cast
  ring

/-! ### The constants -/

/-- What the reciprocal of the natural logarithm of ten holds. -/
def reciprocalNumber : ℚ :=
  3911776933737095 / 2 ^ 53

/-- What the first part of the common logarithm of two holds. -/
def highNumber : ℚ :=
  661971961083 / 2 ^ 41

/-- What the second part holds. -/
def lowNumber : ℚ :=
  3658597174646171 / 2 ^ 93

theorem holds_lnTenReciprocal : Holds lnTenReciprocal reciprocalNumber :=
  @holds_of_ofFloat? _ 7823553867474190 (-54) _ rfl (by norm_num [reciprocalNumber])

theorem holds_logTwoHigh : Holds logTwoHigh highNumber :=
  @holds_of_ofFloat? _ 5422874305191936 (-54) _ rfl (by norm_num [highNumber])

theorem holds_logTwoLow : Holds logTwoLow lowNumber :=
  @holds_of_ofFloat? _ 7317194349292342 (-94) _ rfl (by norm_num [lowNumber])

theorem isRepresentable_mul_highNumber {n : ℕ} (hn : n ≤ 2 ^ 11) :
    IsRepresentable (n * highNumber) := by
  refine ⟨n * 661971961083, -41, (Nat.mul_le_mul_right _ hn).trans (by norm_num), by decide, ?_⟩
  norm_num [highNumber]
  ring

theorem lnTwoFixed_hundred : lnTwoFixed 100 = 878668439483319573618263538022 := by
  decide +kernel

theorem lnTenFixed_hundred : lnTenFixed 100 = 2918873375210475425442079017600 := by
  decide +kernel

theorem log_two_near : |878668439483319573618263538022 - 2 ^ 100 * log 2| ≤ 806 := by
  have h := abs_lnTwoFixed_sub_le (by norm_num : 4 ≤ 100)
  rw [lnTwoFixed_hundred] at h
  norm_num at h ⊢
  exact h

theorem log_ten_near : |2918873375210475425442079017600 - 2 ^ 100 * log 10| ≤ 4030 := by
  have h := @abs_lnFixed_sub_le 100 (.ofNat 10) (by norm_num) (by decide)
  have hexponent : (Ratio.ofNat 10).binaryExponent = 3 := by decide
  rw [← lnTenFixed, lnTenFixed_hundred, hexponent, Ratio.toRat_ofNat] at h
  norm_num at h ⊢
  exact h

theorem log_ten_bounds : 2 ≤ log 10 ∧ log 10 ≤ 4 := by
  have h := log_ten_near
  rw [abs_le] at h
  norm_num1 at h ⊢
  constructor <;> linarith

theorem log_ten_pos : 0 < log 10 :=
  two_pos.trans_le log_ten_bounds.1

/-- The reciprocal of the logarithm of ten is off by a quarter of a part in `2 ^ 53`. -/
theorem reciprocalNumber_near : |reciprocalNumber * log 10 - 1| ≤ 1 / 2 ^ 55 := by
  have h := log_ten_near
  rw [abs_le] at h ⊢
  norm_num [reciprocalNumber] at h ⊢
  constructor <;> linarith

/-- Together, the two parts of the common logarithm of two have more bits than a double. -/
theorem highNumber_add_lowNumber_near :
    |((highNumber + lowNumber : ℚ) - logb 10 2 : ℝ)| ≤ 1 / 2 ^ 80 := by
  have hten := log_ten_bounds.1
  have hsplit : ((highNumber + lowNumber : ℚ) - logb 10 2 : ℝ) =
      ((highNumber + lowNumber : ℚ) * log 10 - log 2) / log 10 := by
    rw [sub_div, mul_div_cancel_right₀ _ log_ten_pos.ne', logb]
  have hnear : |((highNumber + lowNumber : ℚ) * log 10 - log 2 : ℝ)| ≤ 1 / 2 ^ 80 := by
    have h10 := log_ten_near
    have h2 := log_two_near
    rw [abs_le] at h10 h2 ⊢
    norm_num [highNumber, lowNumber] at h10 h2 ⊢
    constructor <;> linarith
  rw [hsplit, abs_div, abs_of_pos log_ten_pos]
  exact (div_le_self (abs_nonneg _) (by linarith)).trans hnear

theorem logb_two_ge : 3 / 10 ≤ logb 10 2 := by
  have h := (abs_le.1 highNumber_add_lowNumber_near).2
  norm_num [highNumber, lowNumber] at h
  linarith

/-- The products of the low part with exponents are next to nothing, and together with those of the
high part they are as good as products of the logarithm. -/
theorem mul_lowNumber_bounds (n : ℕ) : (n * lowNumber : ℝ) ≤ n * logb 10 2 / 2 ^ 39 ∧
    |(n * highNumber + n * lowNumber - n * logb 10 2 : ℝ)| ≤ n * logb 10 2 / 2 ^ 78 := by
  have hlow := logb_two_ge
  have hnear := highNumber_add_lowNumber_near
  have hn : (0 : ℝ) ≤ n := n.cast_nonneg
  push_cast at hnear
  rw [mul_div_assoc, mul_div_assoc, ← mul_add, ← mul_sub, abs_mul, abs_of_nonneg hn]
  refine ⟨mul_le_mul_of_nonneg_left ?_ hn, mul_le_mul_of_nonneg_left (hnear.trans ?_) hn⟩
  · norm_num [lowNumber]
    linarith
  · norm_num1
    linarith

/-! ### The logarithm of what is left -/

section reduced

variable {v : ℚ} {l : ℝ}

theorem abs_product_sub_le (hv0 : 0 ≤ v) (hv : |(v : ℝ) - l| ≤ (1 / 2 ^ 53 + 1 / 2 ^ 90) * l) :
    |((reciprocalNumber * v : ℚ) - l / log 10 : ℝ)| ≤ 21 / 2 ^ 57 * (l / log 10) := by
  have hv0 : (0 : ℝ) ≤ v := by exact_mod_cast hv0
  have hconstant : |(reciprocalNumber * v * log 10 - v : ℝ)| ≤ 1 / 2 ^ 55 * v := by
    have hsplit : (reciprocalNumber * v * log 10 - v : ℝ) =
        (reciprocalNumber * log 10 - 1) * v := by
      ring
    rw [hsplit, abs_mul, abs_of_nonneg hv0]
    exact mul_le_mul_of_nonneg_right reciprocalNumber_near hv0
  have hproduct : |(reciprocalNumber * v * log 10 - l : ℝ)| ≤ 21 / 2 ^ 57 * l := by
    have htriangle := abs_sub_le (reciprocalNumber * v * log 10 : ℝ) v l
    have hup := (abs_le.1 hv).2
    norm_num1 at hv hup hconstant htriangle ⊢
    linarith
  have hsplit : ((reciprocalNumber * v : ℚ) - l / log 10 : ℝ) =
      (reciprocalNumber * v * log 10 - l) / log 10 := by
    rw [sub_div, mul_div_cancel_right₀ _ log_ten_pos.ne', Rat.cast_mul]
  rw [hsplit, abs_div, abs_of_pos log_ten_pos, ← mul_div_assoc]
  exact div_le_div_of_nonneg_right hproduct log_ten_pos.le

/-- The reciprocal of the logarithm of ten times a logarithm: two roundings, and a quarter of one in
the constant. -/
theorem exists_holds_product {y : Float} (hy : Holds y v)
    (hv : |(v : ℝ) - l| ≤ (1 / 2 ^ 53 + 1 / 2 ^ 90) * l) (hl : l = 0 ∨ 1 / 2 ^ 54 ≤ l)
    (hl1 : l ≤ 1) : ∃ t ≤ 2, Holds (lnTenReciprocal * y) t ∧
      |(t - l / log 10 : ℝ)| ≤ 19 / 2 ^ 56 * (l / log 10) := by
  have hproduct := abs_product_sub_le hy.nonneg hv
  have hround := abs_cast_nearestTo_sub_le (mul_nonneg holds_lnTenReciprocal.nonneg hy.nonneg)
  have hle : reciprocalNumber * v ≤ (2 : ℕ) := by
    have hup := (abs_le.1 hv).2
    norm_num1 at hup
    have hv2 : v ≤ 2 := by exact_mod_cast (by linarith : (v : ℝ) ≤ 2)
    norm_num [reciprocalNumber]
    linarith
  obtain ⟨ht, ht2⟩ := holds_lnTenReciprocal.mul_small hy hle (by norm_num)
  refine ⟨_, by exact_mod_cast ht2, ht, ?_⟩
  generalize reciprocalNumber * v = w at hproduct hround
  rcases hl with rfl | hl
  · obtain rfl : w = 0 := by
      rw [zero_div, mul_zero, sub_zero] at hproduct
      exact_mod_cast abs_eq_zero.1 (le_antisymm hproduct (abs_nonneg _))
    simp [nearestTo_eq isRepresentable_zero]
  · obtain ⟨hten, hten'⟩ := log_ten_bounds
    have hsmall : 1 / 2 ^ 56 ≤ l / log 10 := by
      calc (1 : ℝ) / 2 ^ 56 = 1 / 2 ^ 54 / 4 := by norm_num
        _ ≤ l / log 10 :=
            div_le_div₀ ((by positivity : (0 : ℝ) ≤ 1 / 2 ^ 54).trans hl) hl (by linarith) hten'
    have htriangle := abs_sub_le (nearestTo w : ℝ) w (l / log 10)
    have hup := (abs_le.1 hproduct).2
    norm_num1 at hround hproduct hsmall hup ⊢
    linarith

end reduced

/-! ### The power of two that is put back -/

/-- A low part, a number and a high part added up, with a rounding each time. -/
def sumOfParts (low t high : ℚ) : ℚ :=
  nearestTo (nearestTo (nearestTo low + t) + high)

theorem sumOfParts_zero {t : ℚ} (ht : IsRepresentable t) : sumOfParts 0 t 0 = t := by
  rw [sumOfParts, nearestTo_eq isRepresentable_zero, zero_add, add_zero, nearestTo_eq ht,
    nearestTo_eq ht]

/-- What is added last is the greater part, so the errors before it count half. -/
theorem abs_sumOfParts_sub_le {low t high : ℚ} {g p : ℝ} (hlow0 : 0 ≤ low) (ht0 : 0 ≤ t)
    (hhigh0 : 0 ≤ high) (hg : 3 / 10 ≤ g) (hpg : p ≤ g) (hlow : (low : ℝ) ≤ g / 2 ^ 39)
    (hparts : |(high + low - g : ℝ)| ≤ g / 2 ^ 78) (ht : |(t - p : ℝ)| ≤ 19 / 2 ^ 56 * p) :
    |(sumOfParts low t high - (g + p) : ℝ)| ≤ (g + p) / 2 ^ 51 := by
  have hfirst := abs_cast_nearestTo_sub_le hlow0
  have hsecond := abs_cast_nearestTo_sub_le (add_nonneg (nearestTo_nonneg low) ht0)
  have hthird := abs_cast_nearestTo_sub_le
    (add_nonneg (nearestTo_nonneg (nearestTo low + t)) hhigh0)
  rw [sumOfParts]
  generalize nearestTo (nearestTo (nearestTo low + t) + high) = third at hthird ⊢
  generalize nearestTo (nearestTo low + t) = second at hsecond hthird
  generalize nearestTo low = first at hfirst hsecond
  push_cast at hsecond hthird
  rw [abs_le] at *
  norm_num1 at *
  constructor <;> linarith

theorem holds_sumOfParts {count y : Float} {n : ℕ} {t : ℚ} (hcount : Holds count n)
    (hn : n ≤ 2 ^ 11) (hy : Holds y t) (ht : t ≤ 2) :
    Holds (count * logTwoLow + y + count * logTwoHigh)
      (sumOfParts (n * lowNumber) t (n * highNumber)) := by
  have hn' : (n : ℚ) ≤ 2 ^ 11 := by exact_mod_cast hn
  obtain ⟨hlow, hlow1⟩ := hcount.mul_small holds_logTwoLow (k := 1)
    (by norm_num [lowNumber]; linarith) (by norm_num)
  obtain ⟨hhigh, hhigh1⟩ := hcount.mul_small holds_logTwoHigh (k := 2 ^ 11)
    (by norm_num [highNumber]; linarith) (by norm_num)
  obtain ⟨hsum, hsum1⟩ := hlow.add_small hy (k := 3) (by push_cast at hlow1 ⊢; linarith)
    (by norm_num)
  rw [nearestTo_eq (isRepresentable_mul_highNumber hn)] at hhigh hhigh1
  exact (hsum.add_small hhigh (k := 2 ^ 12) (by push_cast at hsum1 hhigh1 ⊢; linarith)
    (by norm_num)).1

/-- The size of a common logarithm, from the power of two and the number that is left. -/
theorem exists_holds_size {count rest : Float} {n : ℕ} {m : ℚ} (hcount : Holds count n)
    (hn : n ≤ 2 ^ 11) (hrest : Holds rest m) (hlow : 1 / 2 ≤ m) (hhigh : m ≤ 2) :
    ∃ s, Holds (count * logTwoLow + lnTenReciprocal * (lnDouble rest).abs + count * logTwoHigh) s ∧
      |(s - (n * logb 10 2 + |log m| / log 10) : ℝ)| ≤
        (n * logb 10 2 + |log m| / log 10) / 2 ^ 51 := by
  have hmost := abs_log_le_log_two hlow hhigh
  obtain ⟨v, hv, hvnear⟩ := exists_holds_lnDouble hrest hlow hhigh
  have hleast : |log m| = 0 ∨ 1 / 2 ^ 54 ≤ |log m| := by
    by_cases hm : m = 1
    · exact .inl (by simp [hm])
    · exact .inr (two_pow_le_abs_log hrest.isRepresentable hlow hhigh hm)
  obtain ⟨t, ht2, ht, htnear⟩ := exists_holds_product hv hvnear hleast
    (hmost.trans (Real.log_two_lt_d9.le.trans (by norm_num)))
  have hpart : |log m| / log 10 ≤ logb 10 2 := div_le_div_of_nonneg_right hmost log_ten_pos.le
  have hpart0 : 0 ≤ |log m| / log 10 := div_nonneg (abs_nonneg _) log_ten_pos.le
  refine ⟨_, holds_sumOfParts hcount hn ht ht2, ?_⟩
  generalize |log m| / log 10 = p at *
  rcases Nat.eq_zero_or_pos n with rfl | hn0
  · rw [Nat.cast_zero, Nat.cast_zero, zero_mul, zero_mul, zero_mul, zero_add,
      sumOfParts_zero ht.isRepresentable]
    refine htnear.trans ?_
    norm_num1
    linarith
  · obtain ⟨hsmall, hparts⟩ := mul_lowNumber_bounds n
    have hone : (1 : ℝ) ≤ n := by exact_mod_cast hn0
    have htwo := logb_two_ge
    have hgreat : logb 10 2 ≤ n * logb 10 2 := le_mul_of_one_le_left (by linarith) hone
    exact abs_sumOfParts_sub_le (mul_nonneg n.cast_nonneg holds_logTwoLow.nonneg) ht.nonneg
      (mul_nonneg n.cast_nonneg holds_logTwoHigh.nonneg) (htwo.trans hgreat)
      (hpart.trans hgreat) (by exact_mod_cast hsmall) (by exact_mod_cast hparts) htnear

/-! ### The double that is computed -/

/-- The logarithm of a number with a power of two behind it, when both are on the same side of
one. -/
theorem abs_logb_mul_zpow {m : ℝ} (hm : 0 < m) {k : ℤ} (h : 0 ≤ k ∧ 1 ≤ m ∨ k ≤ 0 ∧ m ≤ 1) :
    |logb 10 (m * 2 ^ k)| = k.natAbs * logb 10 2 + |log m| / log 10 := by
  have htwo : 0 ≤ log 2 := Real.log_nonneg one_le_two
  have hsum : |k * log 2 + log m| = |(k : ℝ)| * log 2 + |log m| := by
    rw [(abs_add_eq_add_abs_iff _ _).2, abs_mul, abs_of_nonneg htwo]
    refine h.imp (fun h => ⟨?_, Real.log_nonneg h.2⟩) fun h => ⟨?_, Real.log_nonpos hm.le h.2⟩
    · exact mul_nonneg (by exact_mod_cast h.1) htwo
    · exact mul_nonpos_of_nonpos_of_nonneg (by exact_mod_cast h.1) htwo
  rw [logb, Real.log_mul hm.ne' (zpow_pos two_pos k).ne', Real.log_zpow, add_comm, abs_div, hsum,
    abs_of_pos log_ten_pos, add_div, mul_div_assoc, Nat.cast_natAbs, Int.cast_abs, logb]

/-- A power of two can be taken out of a double exactly, if that leaves one that is not small. -/
theorem holds_mulTwoPow {d : Dyadic} (hc : d.Canonical) {k : ℤ} {m : ℚ}
    (hm : d.magnitude.toRat = m * 2 ^ k) (hk : k ≤ 0 ∨ 1 ≤ m) (hm2 : m ≤ 2) :
    Holds ((d.magnitude.mulTwoPow (-k)).toFloat false) m := by
  have hpos : (0 : ℚ) < 2 ^ k := zpow_pos two_pos _
  have hvalue : d.magnitude.toRat * 2 ^ (-k) = m := by
    rw [hm, mul_assoc, ← zpow_add₀ two_ne_zero, add_neg_cancel, zpow_zero, mul_one]
  have hrepresentable : IsRepresentable m := by
    refine ⟨d.mantissa, d.exponent - k, hc.mantissa_lt.le, ?_, ?_⟩
    · have hleast := hc.least_le
      rcases hk with hk | hone
      · omega
      · have hlow : (2 : ℚ) ^ k ≤ d.mantissa * 2 ^ d.exponent := by
          rw [← d.toRat_magnitude, hm]
          exact le_mul_of_one_le_left hpos.le hone
        have hlt : (2 : ℚ) ^ k < 2 ^ (53 + d.exponent) := by
          refine hlow.trans_lt ?_
          rw [zpow_add₀ two_ne_zero]
          exact mul_lt_mul_of_pos_right (by exact_mod_cast hc.mantissa_lt) (zpow_pos two_pos _)
        have := (zpow_lt_zpow_iff_right₀ (one_lt_two : (1 : ℚ) < 2)).1 hlt
        change -1074 ≤ d.exponent - k
        omega
    · rw [← hvalue, d.toRat_magnitude, mul_assoc, ← zpow_add₀ two_ne_zero, sub_eq_add_neg]
  have hfloat := holds_toFloat ((Ratio.toRat_mulTwoPow _ _).trans hvalue)
    (nearestTo_lt_infinity hrepresentable.nonneg (hm2.trans (by norm_num)))
  rwa [nearestTo_eq hrepresentable] at hfloat

theorem Dyadic.Canonical.binaryExponent_bounds {d : Dyadic} (hc : d.Canonical)
    (h0 : 0 < d.magnitude.toRat) :
    -1074 ≤ d.magnitude.binaryExponent ∧ d.magnitude.binaryExponent < 1024 := by
  have hnum := Ratio.num_ne_zero h0
  rw [Ratio.le_binaryExponent_iff hnum, Ratio.binaryExponent_lt_iff hnum]
  refine ⟨?_, hc.toRat_lt⟩
  rw [d.toRat_magnitude] at h0 ⊢
  have hone : (1 : ℚ) ≤ d.mantissa := by
    exact_mod_cast Nat.cast_pos.1 (pos_of_mul_pos_left h0 (zpow_pos two_pos _).le)
  exact (zpow_le_zpow_right₀ one_le_two hc.least_le).trans
    (le_mul_of_one_le_left (zpow_pos two_pos _).le hone)

/-- With a power of two put back, a size is as good as the logarithm. -/
theorem exists_holds_size_of_zpow {d : Dyadic} (hc : d.Canonical) {k : ℤ} {m : ℚ}
    (hm : d.magnitude.toRat = m * 2 ^ k) (hk : |k| ≤ 2 ^ 11) (hlow : 1 / 2 ≤ m) (hhigh : m ≤ 2)
    (h : 0 ≤ k ∧ 1 ≤ m ∨ k ≤ 0 ∧ m ≤ 1) : ∃ s,
      Holds (nearestToInt k.natAbs * logTwoLow +
        lnTenReciprocal * (lnDouble ((d.magnitude.mulTwoPow (-k)).toFloat false)).abs +
        nearestToInt k.natAbs * logTwoHigh) s ∧
      |(s - |logb 10 d.magnitude.toRat| : ℝ)| ≤ |logb 10 d.magnitude.toRat| / 2 ^ 51 := by
  have hn : k.natAbs ≤ 2 ^ 11 := by
    rw [abs_le] at hk
    omega
  have hcount : Holds (nearestToInt k.natAbs) k.natAbs := by
    have hrepresentable := isRepresentable_natCast (hn.trans (by norm_num : 2 ^ 11 ≤ 2 ^ 53))
    have hholds := @holds_nearestToInt k.natAbs
    rw [nearestTo_eq hrepresentable] at hholds
    exact hholds (natCast_lt_infinity (hn.trans (by norm_num)))
  have hrest := holds_mulTwoPow hc hm (h.symm.imp And.left And.right) hhigh
  have hlog : |logb 10 d.magnitude.toRat| = k.natAbs * logb 10 2 + |log m| / log 10 := by
    rw [hm, Rat.cast_mul, Rat.cast_zpow, Rat.cast_ofNat]
    exact abs_logb_mul_zpow (by exact_mod_cast (by linarith : 0 < m)) (by exact_mod_cast h)
  rw [hlog]
  exact exists_holds_size hcount hn hrest hlow hhigh

/-- The number that is left is from one half up to two, on the side of one that its double is on. -/
theorem exists_eq_mul_zpow {q : ℚ} {k : ℤ} (hlow : 2 ^ k ≤ q) (hhigh : q < 2 ^ (k + 1)) :
    ∃ m, q = m * 2 ^ (if k < 0 then k + 1 else k) ∧ 1 / 2 ≤ m ∧ m ≤ 2 ∧
      (0 ≤ k ∧ 1 ≤ m ∨ k < 0 ∧ m ≤ 1) := by
  have hpos (j : ℤ) : (0 : ℚ) < 2 ^ j := zpow_pos two_pos j
  by_cases hk : k < 0
  · rw [if_pos hk]
    refine ⟨q / 2 ^ (k + 1), (div_mul_cancel₀ _ (hpos _).ne').symm, ?_, ?_, .inr ⟨hk, ?_⟩⟩
    · rw [le_div_iff₀ (hpos _), zpow_add_one₀ two_ne_zero]
      linarith
    · rw [div_le_iff₀ (hpos _)]
      linarith [hpos (k + 1)]
    · exact (div_le_one (hpos _)).2 hhigh.le
  · rw [if_neg hk]
    rw [zpow_add_one₀ two_ne_zero] at hhigh
    refine ⟨q / 2 ^ k, (div_mul_cancel₀ _ (hpos _).ne').symm, ?_, ?_, .inl ⟨not_lt.1 hk, ?_⟩⟩
    · rw [le_div_iff₀ (hpos _)]
      linarith [hpos k]
    · rw [div_le_iff₀ (hpos _)]
      linarith
    · exact (one_le_div (hpos _)).2 hlow

theorem isCommonLogarithm_log10Double : IsCommonLogarithm log10Double := by
  rintro x _ ⟨d, hd, hneg, rfl⟩ h0
  have hc := Dyadic.canonical_of_ofFloat? hd
  have hnum := Ratio.num_ne_zero h0
  obtain ⟨hleast, hmost⟩ := hc.binaryExponent_bounds h0
  obtain ⟨hlow, hhigh⟩ := Ratio.binaryExponent_spec hnum
  rw [log10Double, hd]
  dsimp only
  generalize d.magnitude.binaryExponent = k at hleast hmost hlow hhigh ⊢
  obtain ⟨m, hm, hm₁, hm₂, hside⟩ := exists_eq_mul_zpow hlow hhigh
  have hpower : |if k < 0 then k + 1 else k| ≤ 2 ^ 11 := by
    rw [abs_le]
    omega
  obtain ⟨s, ⟨e, he, heneg, rfl⟩, hnear⟩ := exists_holds_size_of_zpow hc hm hpower hm₁ hm₂
    (hside.imp (fun h => ⟨by omega, h.2⟩) fun h => ⟨by omega, h.2⟩)
  rcases hside with ⟨hk, -⟩ | ⟨hk, -⟩
  · have hone : 1 ≤ d.magnitude.toRat := (one_le_zpow₀ one_le_two hk).trans hlow
    have hsign : 0 ≤ logb 10 d.magnitude.toRat :=
      Real.logb_nonneg (by norm_num) (by exact_mod_cast hone)
    rw [abs_of_nonneg hsign] at hnear
    rw [if_neg (not_lt.2 hk)]
    refine ⟨_, he, ?_⟩
    rw [logarithmError_mul, abs_of_nonneg hsign, Dyadic.value, heneg]
    exact hnear
  · have hone : d.magnitude.toRat ≤ 1 :=
      hhigh.le.trans (zpow_le_one_of_nonpos₀ one_le_two (by omega))
    have hsign : logb 10 d.magnitude.toRat ≤ 0 :=
      Real.logb_nonpos (by norm_num) (by exact_mod_cast h0.le) (by exact_mod_cast hone)
    rw [abs_of_nonpos hsign, sub_neg_eq_add] at hnear
    rw [if_pos hk]
    refine ⟨_, Dyadic.ofFloat?_neg he, ?_⟩
    rw [logarithmError_mul, abs_of_nonpos hsign, Dyadic.value, heneg]
    change |((-e.magnitude.toRat : ℚ) - logb 10 d.magnitude.toRat : ℝ)| ≤ _
    rw [Rat.cast_neg, ← abs_neg, neg_sub, sub_neg_eq_add, add_comm]
    exact hnear

end PocketCalculator
