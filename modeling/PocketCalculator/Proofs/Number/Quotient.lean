import PocketCalculator.Proofs.Number.Rounding

/-! # Division of doubles

The quotient of two finite doubles is the double nearest to the quotient of their numbers:
`double_div_eq`.  The division keeps a whole quotient, and two bits that tell where between this one
and the next the exact one lies (`Describes`).  Shifting the whole quotient to the right keeps the
two bits true, so what is rounded in the end is the exact quotient on its grid. -/

namespace PocketCalculator

open Float.Model (Format UnpackedFloat totalExponent)
open Float.Model.UnpackedFloat (ExtendedMantissa Accuracy accuracyOfFraction shiftToExponent
  shiftToTargetExponent roundWithAccuracy divCore)

/-! ### A mantissa with a round bit and a sticky bit -/

/-- Where a number lies between a mantissa and the next one, as the two bits tell. -/
def Describes (em : ExtendedMantissa) (u : ℚ) : Prop :=
  match em.roundBit, em.stickyBit with
  | false, false => u = em.mantissa
  | false, true => em.mantissa < u ∧ u < em.mantissa + 1 / 2
  | true, false => u = em.mantissa + 1 / 2
  | true, true => em.mantissa + 1 / 2 < u ∧ u < em.mantissa + 1

namespace Describes

variable {em : ExtendedMantissa} {u : ℚ}

theorem exact (n : ℕ) : Describes (.ofMantissaAndAccuracy n .exact) n :=
  rfl

/-- The remainder of a division tells where the quotient lies. -/
theorem quotient (num : ℕ) {den : ℕ} (h : 0 < den) :
    Describes (.ofMantissaAndAccuracy (num / den) (accuracyOfFraction (num % den) den))
      (num / den) := by
  have hden : (0 : ℚ) < den := Nat.cast_pos.2 h
  have hmod : ((num % den : ℕ) : ℚ) < den := by exact_mod_cast Nat.mod_lt num h
  have hdiv : (num : ℚ) / den = (num / den : ℕ) + (num % den : ℕ) / den := by
    rw [div_eq_iff hden.ne', add_mul, div_mul_cancel₀ _ hden.ne']
    exact_mod_cast (Nat.div_add_mod' num den).symm
  rw [hdiv, accuracyOfFraction]
  generalize num % den = rest at hmod ⊢
  by_cases hrest : rest = 0
  · rw [if_pos hrest, hrest, Nat.cast_zero, zero_div, add_zero]
    exact exact _
  · have hpos : (0 : ℚ) < rest / den := div_pos (Nat.cast_pos.2 (Nat.pos_of_ne_zero hrest)) hden
    rw [if_neg hrest]
    rcases lt_trichotomy (2 * rest) den with hhalf | hhalf | hhalf
    · rw [Nat.compare_eq_lt.2 hhalf]
      have : (rest : ℚ) / den < 1 / 2 := by
        rw [div_lt_div_iff₀ hden two_pos]
        exact_mod_cast (by omega : rest * 2 < 1 * den)
      change ((num / den : ℕ) : ℚ) < _ ∧ _ < ((num / den : ℕ) : ℚ) + 1 / 2
      constructor <;> linarith
    · rw [Nat.compare_eq_eq.2 hhalf]
      have : (rest : ℚ) / den = 1 / 2 := by
        rw [div_eq_div_iff hden.ne' two_ne_zero]
        exact_mod_cast (by omega : rest * 2 = 1 * den)
      exact congrArg _ this
    · rw [Nat.compare_eq_gt.2 hhalf]
      have hgt : 1 / 2 < (rest : ℚ) / den := by
        rw [div_lt_div_iff₀ two_pos hden]
        exact_mod_cast (by omega : 1 * den < rest * 2)
      have hlt : (rest : ℚ) / den < 1 := (div_lt_one hden).2 hmod
      change ((num / den : ℕ) : ℚ) + 1 / 2 < _ ∧ _ < ((num / den : ℕ) : ℚ) + 1
      constructor <;> linarith

theorem mantissa_le (h : Describes em u) : em.mantissa ≤ u ∧ u < em.mantissa + 1 := by
  obtain ⟨m, round, sticky⟩ := em
  cases round <;> cases sticky <;> simp only [Describes] at h
  · exact ⟨h.ge, by linarith⟩
  · exact ⟨h.1.le, by linarith⟩
  · constructor <;> linarith
  · exact ⟨by linarith, h.2⟩

theorem shiftRightOne (h : Describes em u) : Describes em.shiftRightOne (u / 2) := by
  obtain ⟨m, round, sticky⟩ := em
  have hm : (m : ℚ) = 2 * (m / 2 : ℕ) + (m % 2 : ℕ) := by exact_mod_cast (Nat.div_add_mod m 2).symm
  rcases Nat.mod_two_eq_zero_or_one m with hbit | hbit
  · have hround : (m % 2 != 0) = false := by rw [hbit]; rfl
    rw [hbit, Nat.cast_zero] at hm
    cases round <;> cases sticky <;>
      simp only [Describes, ExtendedMantissa.shiftRightOne, hround, Bool.or_self, Bool.or_true,
        Bool.or_false] at h ⊢
    · linarith
    · constructor <;> linarith
    · constructor <;> linarith
    · constructor <;> linarith
  · have hround : (m % 2 != 0) = true := by rw [hbit]; rfl
    rw [hbit, Nat.cast_one] at hm
    cases round <;> cases sticky <;>
      simp only [Describes, ExtendedMantissa.shiftRightOne, hround, Bool.or_self, Bool.or_true,
        Bool.or_false] at h ⊢
    · linarith
    · constructor <;> linarith
    · constructor <;> linarith
    · constructor <;> linarith

theorem shiftRight (h : Describes em u) (n : ℕ) : Describes (em >>> n) (u / 2 ^ n) := by
  change Describes (n.repeat ExtendedMantissa.shiftRightOne em) _
  induction n with
  | zero => simpa [Nat.repeat] using h
  | succ n ih =>
      rw [Nat.repeat, pow_succ, ← div_div]
      exact ih.shiftRightOne

/-- The two bits are all that rounding needs. -/
theorem roundedMantissa_eq {r : Ratio} (h : Describes em r.toRat) :
    em.roundedMantissa = r.round .toEven := by
  obtain ⟨m, round, sticky⟩ := em
  symm
  cases round <;> cases sticky <;> simp only [Describes] at h
  · change r.round .toEven = m
    exact r.round_eq_of_abs_lt _ (by rw [h]; norm_num)
  · change r.round .toEven = m
    exact r.round_eq_of_abs_lt _ (abs_lt.2 ⟨by linarith, by linarith⟩)
  · change r.round .toEven = m + m % 2
    refine r.round_toEven_eq_of_abs_le (by omega) ?_
    rcases Nat.mod_two_eq_zero_or_one m with hbit | hbit <;> rw [hbit, h, abs_le] <;>
      constructor <;> push_cast <;> linarith
  · change r.round .toEven = m + 1
    refine r.round_eq_of_abs_lt _ ?_
    rw [abs_lt]
    constructor <;> push_cast <;> linarith

end Describes

/-! ### Rounding with two bits -/

section rounding

variable {q : Ratio} {n : ℕ} {t : ℤ} {accuracy : Accuracy}

theorem targetExponent_eq (n : ℕ) (t : ℤ) : Format.binary64.targetExponent (totalExponent n t) =
    max (n.log2 + t - 52) (-1074) := by
  change max ((n.log2 : ℤ) + 1 + t - 53) (-1074) = _
  omega

theorem gridExponent_of_describes (hq : q.num ≠ 0)
    (h : Describes (.ofMantissaAndAccuracy n accuracy) (q.mulTwoPow (-t)).toRat)
    (ht : t ≤ q.gridExponent) : max (max (n.log2 + t - 52) (-1074)) t = q.gridExponent := by
  have hn : (ExtendedMantissa.ofMantissaAndAccuracy n accuracy).mantissa = n := by
    rcases accuracy with _ | order
    · rfl
    · cases order <;> rfl
  have hpos : (0 : ℚ) < 2 ^ t := zpow_pos two_pos _
  obtain ⟨hlow, hhigh⟩ := h.mantissa_le
  rw [hn, Ratio.toRat_mulTwoPow, zpow_neg, ← div_eq_mul_inv] at hlow hhigh
  rw [le_div_iff₀ hpos] at hlow
  rw [div_lt_iff₀ hpos] at hhigh
  have hgrid : q.gridExponent = max (q.binaryExponent - 52) (-1074) := rfl
  by_cases hn0 : n = 0
  · have hbt : q.binaryExponent < t := by
      rw [hn0, Nat.cast_zero, zero_add, one_mul] at hhigh
      exact (Ratio.binaryExponent_lt_iff hq).2 hhigh
    have hlog : Nat.log2 0 = 0 := rfl
    rw [hn0, hlog]
    omega
  · obtain ⟨hlog, hlog'⟩ := Ratio.log2_bounds hn0
    have hfirst : (n.log2 : ℤ) + t ≤ q.binaryExponent := by
      refine (Ratio.le_binaryExponent_iff hq).2 (le_trans ?_ hlow)
      rw [zpow_add₀ two_ne_zero]
      exact mul_le_mul_of_nonneg_right hlog hpos.le
    have hsecond : q.binaryExponent < (n.log2 : ℤ) + 1 + t := by
      refine (Ratio.binaryExponent_lt_iff hq).2 (hhigh.trans_le ?_)
      have hsucc : ((n : ℚ) + 1) ≤ 2 ^ ((n.log2 : ℤ) + 1) := by
        exact_mod_cast Nat.succ_le_of_lt (@Nat.lt_log2_self n)
      rw [zpow_add₀ two_ne_zero _ t]
      exact mul_le_mul_of_nonneg_right hsucc hpos.le
    omega

/-- The first shift brings a number described from a finer unit to its grid. -/
theorem shiftToTargetExponent_eq (hq : q.num ≠ 0)
    (h : Describes (.ofMantissaAndAccuracy n accuracy) (q.mulTwoPow (-t)).toRat)
    (ht : t ≤ q.gridExponent) :
    ∃ em, shiftToTargetExponent .binary64 n t accuracy = (em, q.gridExponent) ∧
      em.roundedMantissa = q.units := by
  have hgrid := gridExponent_of_describes hq h ht
  generalize hk : (max ((n.log2 : ℤ) + t - 52) (-1074) - t).toNat = k
  have hgk : q.gridExponent = t + k := by omega
  refine ⟨ExtendedMantissa.ofMantissaAndAccuracy n accuracy >>> k, ?_, ?_⟩
  · rw [shiftToTargetExponent, targetExponent_eq]
    simp only [shiftToExponent, hk, hgk]
  · refine Describes.roundedMantissa_eq ?_
    have hshift := h.shiftRight k
    convert hshift using 1
    rw [Ratio.toRat_mulTwoPow, Ratio.toRat_mulTwoPow, hgk, neg_add, zpow_add₀ two_ne_zero,
      ← mul_assoc, zpow_neg _ (k : ℤ), zpow_natCast, div_eq_mul_inv]

/-- The second shift lets a mantissa that has reached the next power of two carry. -/
theorem shiftToTargetExponent_exact {g : ℤ} (hn : n ≤ 2 ^ 53) (hg : -1074 ≤ g) :
    shiftToTargetExponent .binary64 n g .exact =
      if n < 2 ^ 53 then (⟨n, false, false⟩, g) else (⟨2 ^ 52, false, false⟩, g + 1) := by
  rw [shiftToTargetExponent, targetExponent_eq]
  simp only [shiftToExponent]
  split
  · rename_i hlt
    have hlog : n.log2 ≤ 52 := by
      by_cases hn0 : n = 0
      · rw [hn0]
        decide
      · exact Nat.lt_succ_iff.1 ((Nat.log2_lt hn0).2 hlt)
    have hzero : (max ((n.log2 : ℤ) + g - 52) (-1074) - g).toNat = 0 := by omega
    rw [hzero, Nat.cast_zero, add_zero]
    rfl
  · have hn53 : n = 2 ^ 53 := by omega
    have hlog : n.log2 = 53 := by rw [hn53, Nat.log2_two_pow]
    have hone : (max ((n.log2 : ℤ) + g - 52) (-1074) - g).toNat = 1 := by omega
    rw [hone, hn53, Nat.cast_one]
    rfl

/-- What rounding packs in the end. -/
theorem roundWithAccuracy_eq (negative : Bool) (hq : q.num ≠ 0)
    (h : Describes (.ofMantissaAndAccuracy n accuracy) (q.mulTwoPow (-t)).toRat)
    (ht : t ≤ q.gridExponent) :
    roundWithAccuracy .binary64 (Dyadic.sign negative) n t accuracy =
      if hm : (q.nearestDyadic negative).mantissa = 0 then .zero (Dyadic.sign negative)
      else .finite (Dyadic.sign negative) (q.nearestDyadic negative).mantissa
        (q.nearestDyadic negative).exponent (Nat.pos_of_ne_zero hm) := by
  obtain ⟨em, hfirst, hunits⟩ := shiftToTargetExponent_eq hq h ht
  have hsecond := shiftToTargetExponent_exact (Ratio.units_le hq)
    (@Ratio.least_le_gridExponent q)
  rw [roundWithAccuracy, hfirst, Ratio.nearestDyadic, Dyadic.ofUnits]
  simp only [hunits, hsecond]
  by_cases hcarry : q.units < 2 ^ 53
  · simp only [if_pos hcarry]
  · simp only [if_neg hcarry]

/-- Rounding a number described from a finer unit gives the double nearest to it. -/
theorem ofModel_pack_roundWithAccuracy (negative : Bool) (hq : q.num ≠ 0)
    (h : Describes (.ofMantissaAndAccuracy n accuracy) (q.mulTwoPow (-t)).toRat)
    (ht : t ≤ q.gridExponent) (hlt : q.nearest < 2 ^ (1024 : ℤ)) :
    Float.ofModel (.pack (roundWithAccuracy .binary64 (Dyadic.sign negative) n t accuracy)) =
      q.toFloat negative := by
  have hc := Ratio.canonical_nearestDyadic hq hlt negative
  have hsign : (q.nearestDyadic negative).negative = negative := Dyadic.negative_ofUnits negative
  rw [Ratio.toFloat_eq hq hlt, roundWithAccuracy_eq negative hq h ht]
  split
  · rename_i hm
    rw [hc.pattern_eq_zero hm]
    exact Dyadic.ofModel_pack_zero negative
  · rename_i hm
    have := Dyadic.ofModel_pack_finite hc (Nat.pos_of_ne_zero hm)
    rwa [hsign] at this

end rounding

/-! ### Quotients -/

/-- The quotient of two ratios. -/
def Ratio.div (r s : Ratio) (h : 0 < s.num) : Ratio :=
  ⟨r.num * s.den, r.den * s.num, Nat.mul_pos r.den_pos h⟩

theorem Ratio.toRat_div (r s : Ratio) (h : 0 < s.num) : (r.div s h).toRat = r.toRat / s.toRat := by
  rw [div, toRat, toRat, toRat, div_div_div_eq]
  push_cast
  rfl

theorem Dyadic.magnitude_num_pos {d : Dyadic} (h : 0 < d.mantissa) : 0 < d.magnitude.num := by
  refine Nat.pos_of_ne_zero fun hzero => ?_
  rw [Ratio.num_eq_zero_iff, toRat_magnitude] at hzero
  exact (mul_pos (Nat.cast_pos.2 h) (zpow_pos two_pos _)).ne' hzero

theorem sign_div_sign (a b : Bool) : Dyadic.sign a / Dyadic.sign b = Dyadic.sign (a != b) := by
  cases a <;> cases b <;> rfl

section core

variable {a b : Dyadic} (ha : 0 < a.mantissa) (hb : 0 < b.mantissa)

/-- The quotient of two dyadics. -/
def Dyadic.quotient (a b : Dyadic) (hb : 0 < b.mantissa) : Ratio :=
  a.magnitude.div b.magnitude (b.magnitude_num_pos hb)

theorem Dyadic.toRat_quotient :
    (a.quotient b hb).toRat = a.mantissa / b.mantissa * 2 ^ (a.exponent - b.exponent) := by
  rw [quotient, Ratio.toRat_div, toRat_magnitude, toRat_magnitude, mul_div_mul_comm,
    zpow_sub₀ two_ne_zero]

include ha in
theorem Dyadic.quotient_num_ne_zero : (a.quotient b hb).num ≠ 0 :=
  (Nat.mul_pos (a.magnitude_num_pos ha) b.magnitude.den_pos).ne'

include ha hb in
theorem divCore_exponent_le : (divCore .binary64 a.mantissa a.exponent b.mantissa b.exponent).2.1 ≤
    (a.quotient b hb).gridExponent := by
  obtain ⟨hm, hm'⟩ := Ratio.log2_bounds ha.ne'
  obtain ⟨hn, hn'⟩ := Ratio.log2_bounds hb.ne'
  have hlow := (Ratio.zpow_lt_div_lt one_lt_two hm hm' hn hn').1
  have hle : (a.mantissa.log2 : ℤ) - b.mantissa.log2 - 1 + (a.exponent - b.exponent) ≤
      (a.quotient b hb).binaryExponent := by
    rw [Ratio.le_binaryExponent_iff (Dyadic.quotient_num_ne_zero ha hb), Dyadic.toRat_quotient,
      zpow_add₀ two_ne_zero]
    exact mul_le_mul_of_nonneg_right hlow.le (zpow_pos two_pos _).le
  change min (a.exponent - b.exponent) (max ((a.mantissa.log2 : ℤ) + 1 + a.exponent -
    (b.mantissa.log2 + 1 + b.exponent) - 53) (-1074)) ≤
      max ((a.quotient b hb).binaryExponent - 52) (-1074)
  omega

include hb in
/-- The whole quotient and its remainder describe the exact quotient. -/
theorem describes_divCore :
    Describes (.ofMantissaAndAccuracy (divCore .binary64 a.mantissa a.exponent b.mantissa
      b.exponent).1 (divCore .binary64 a.mantissa a.exponent b.mantissa b.exponent).2.2)
      ((a.quotient b hb).mulTwoPow
        (-(divCore .binary64 a.mantissa a.exponent b.mantissa b.exponent).2.1)).toRat := by
  rw [divCore]
  dsimp only
  generalize ht : min (a.exponent - b.exponent) _ = t
  have htle : t ≤ a.exponent - b.exponent := ht ▸ min_le_left _ _
  have hq := Describes.quotient (a.mantissa <<< (a.exponent - b.exponent - t).toNat) hb
  convert hq using 1
  rw [Ratio.toRat_mulTwoPow, Dyadic.toRat_quotient, mul_assoc, ← zpow_add₀ two_ne_zero,
    Nat.shiftLeft_eq, Nat.cast_mul, Nat.cast_pow, Nat.cast_two, mul_div_right_comm, ← zpow_natCast]
  congr 2
  omega

end core

/-- The quotient of two finite doubles is the double nearest to the quotient of their numbers. -/
theorem double_div_eq {x y : Float} {a b : Dyadic} (hx : Dyadic.ofFloat? x = some a)
    (hy : Dyadic.ofFloat? y = some b) (hb : 0 < b.mantissa)
    (hlt : (a.quotient b hb).nearest < 2 ^ (1024 : ℤ)) :
    x / y = (a.quotient b hb).toFloat (a.negative != b.negative) := by
  change Float.ofModel (.pack (x.toModel.unpack.div .binary64 y.toModel.unpack)) = _
  rw [Dyadic.toModel_unpack hy hb]
  rcases Nat.eq_zero_or_pos a.mantissa with ha | ha
  · have hzero : (a.quotient b hb).num = 0 := by
      rw [Ratio.num_eq_zero_iff, Dyadic.toRat_quotient, ha, Nat.cast_zero, zero_div, zero_mul]
    rw [Dyadic.toModel_unpack_zero hx ha, UnpackedFloat.div, sign_div_sign,
      Dyadic.ofModel_pack_zero, Ratio.toFloat, Ratio.nearestBits, if_pos hzero]
  · rw [Dyadic.toModel_unpack hx ha, UnpackedFloat.div, sign_div_sign]
    exact ofModel_pack_roundWithAccuracy _ (Dyadic.quotient_num_ne_zero ha hb)
      (describes_divCore hb) (divCore_exponent_le ha hb) hlt

/-- What is read off a quotient. -/
theorem exists_ofFloat?_div {x y : Float} {a b : Dyadic} (hx : Dyadic.ofFloat? x = some a)
    (hy : Dyadic.ofFloat? y = some b) (hb : 0 < b.mantissa)
    (hlt : (a.quotient b hb).nearest < 2 ^ (1024 : ℤ)) :
    ∃ c, Dyadic.ofFloat? (x / y) = some c ∧ c.negative = (a.negative != b.negative) ∧
      c.magnitude.toRat = (a.quotient b hb).nearest := by
  rw [double_div_eq hx hy hb hlt]
  exact Ratio.ofFloat?_toFloat hlt _

end PocketCalculator
