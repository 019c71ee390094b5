import PocketCalculator.Number.FloorDivision
import PocketCalculator.Proofs.Number.Arithmetic

/-! # Division rounded down, as a function of numbers

The remainder that is taken off first is exact.  What is left, a multiple of the divisor, is rounded
to a double, divided and rounded again, and of this the whole number next to it is the result, the
lower one in the middle between two: `floorQuotient` says this for numbers, and
`Holds.floorDivide` that it is what the operations on doubles do. -/

namespace PocketCalculator

variable {x y : Float} {a b : ℚ}

/-! ### Whole parts -/

theorem Ratio.floor_eq (r : Ratio) : r.floor = ⌊r.toRat⌋₊ :=
  (Nat.floor_div_eq_div _ _).symm

theorem floor_div_bounds (ha : 0 ≤ a) (hb : 0 < b) :
    (⌊a / b⌋₊ : ℚ) * b ≤ a ∧ a < ⌊a / b⌋₊ * b + b := by
  have hlow := Nat.floor_le (div_nonneg ha hb.le)
  have hhigh := Nat.lt_floor_add_one (a / b)
  rw [le_div_iff₀ hb] at hlow
  rw [div_lt_iff₀ hb] at hhigh
  exact ⟨hlow, by linarith⟩

theorem IsRepresentable.exists_natCast_or_lt (ha : IsRepresentable a) :
    (∃ n : ℕ, a = n) ∨ a < 2 ^ 53 := by
  obtain ⟨n, rfl⟩ | ⟨-, hle⟩ := @IsRepresentable.multiple_or_le a ha 0
  · exact .inl ⟨n, by rw [zpow_zero, mul_one]⟩
  · rw [zpow_zero, mul_one] at hle
    exact .inr (hle.trans_lt (by norm_num))

theorem IsRepresentable.floor (ha : IsRepresentable a) : IsRepresentable ⌊a⌋₊ := by
  obtain ⟨n, rfl⟩ | hlt := ha.exists_natCast_or_lt
  · rwa [Nat.floor_natCast]
  · refine isRepresentable_natCast ?_
    exact_mod_cast (Nat.floor_le ha.nonneg).trans hlt.le

theorem IsRepresentable.fract (ha : IsRepresentable a) : IsRepresentable (a - ⌊a⌋₊) := by
  obtain ⟨n, rfl⟩ | hlt := ha.exists_natCast_or_lt
  · rw [Nat.floor_natCast, sub_self]
    exact isRepresentable_zero
  · exact ha.sub_natCast hlt (Nat.floor_le ha.nonneg)

theorem Holds.floorFloat (hx : Holds x a) : Holds (floorFloat x) ⌊a⌋₊ := by
  have hfloor := hx.isRepresentable.floor
  obtain ⟨d, hd, hneg, rfl⟩ := hx
  have hd' : PocketCalculator.floorFloat x = nearestToInt ⌊d.magnitude.toRat⌋₊ := by
    rw [PocketCalculator.floorFloat, hd, ← Ratio.floor_eq]
    dsimp only
    rw [Dyadic.floor, Dyadic.truncate, hneg]
    rfl
  rw [hd', ← nearestTo_eq hfloor]
  refine holds_nearestToInt ?_
  rw [nearestTo_eq hfloor]
  exact (Nat.floor_le d.magnitude.toRat_nonneg).trans_lt
    (Holds.lt_infinity ⟨d, hd, hneg, rfl⟩)

theorem Holds.signBit (hx : Holds x a) : signBit x = false := by
  obtain ⟨d, hd, hneg, -⟩ := hx
  rw [← hneg, (Dyadic.fields_of_ofFloat? hd).2.1]

/-! ### The division -/

theorem Dyadic.toRat_aligned (d : Dyadic) {q : ℤ} (h : q ≤ d.exponent) :
    d.magnitude.toRat = (d.mantissa * twoPow (d.exponent - q).toNat : ℕ) * 2 ^ q := by
  rw [d.toRat_magnitude, IsRepresentable.two_zpow_eq_mul h, ← mul_assoc]
  push_cast [twoPow_eq]
  rfl

/-- The remainder of a division is exact. -/
theorem holds_exactRemainder {d e : Dyadic} (hd : d.Canonical) (he : e.Canonical)
    (hneg : d.negative = false) (hm : 0 < e.mantissa) :
    Holds (exactRemainder d e) (d.magnitude.toRat -
      ⌊d.magnitude.toRat / e.magnitude.toRat⌋₊ * e.magnitude.toRat) := by
  have hone : twoPow 0 = 1 := rfl
  -- on the finer of the two grids one of the two mantissas is as it was, and bounds the remainder
  have hsmall : d.mantissa * twoPow (d.exponent - min d.exponent e.exponent).toNat %
      (e.mantissa * twoPow (e.exponent - min d.exponent e.exponent).toNat) ≤ 2 ^ 53 := by
    rcases le_total d.exponent e.exponent with h | h
    · rw [min_eq_left h, sub_self, Int.toNat_zero, hone, Nat.mul_one]
      exact (Nat.mod_le _ _).trans hd.mantissa_lt.le
    · rw [min_eq_right h, sub_self, Int.toNat_zero, hone, Nat.mul_one]
      exact ((Nat.mod_lt _ hm).trans he.mantissa_lt).le
  have hsign : exactRemainder d e = (unitsRatio (d.mantissa *
      twoPow (d.exponent - min d.exponent e.exponent).toNat %
        (e.mantissa * twoPow (e.exponent - min d.exponent e.exponent).toNat))
      (min d.exponent e.exponent)).toFloat false := by
    rw [exactRemainder, hneg]
    rfl
  have hq : (0 : ℚ) < 2 ^ min d.exponent e.exponent := zpow_pos two_pos _
  have hle : leastExponent ≤ min d.exponent e.exponent := le_min hd.least_le he.least_le
  have hrest : (d.magnitude.toRat - ⌊d.magnitude.toRat / e.magnitude.toRat⌋₊ * e.magnitude.toRat) =
      (d.mantissa * twoPow (d.exponent - min d.exponent e.exponent).toNat %
        (e.mantissa * twoPow (e.exponent - min d.exponent e.exponent).toNat) : ℕ) *
        2 ^ min d.exponent e.exponent := by
    rw [d.toRat_aligned (min_le_left _ _), e.toRat_aligned (min_le_right _ _),
      mul_div_mul_right _ _ hq.ne', Nat.floor_div_eq_div, ← mul_assoc, ← sub_mul]
    congr 1
    rw [← Nat.cast_mul, ← Nat.cast_sub (Nat.div_mul_le_self _ _), ← Nat.mod_eq_sub_div_mul]
  have hrepresentable : IsRepresentable
      (d.magnitude.toRat - ⌊d.magnitude.toRat / e.magnitude.toRat⌋₊ * e.magnitude.toRat) :=
    ⟨_, _, hsmall, hle, hrest⟩
  rw [hsign]
  have hrounded := nearestTo_eq hrepresentable
  rw [← hrounded]
  refine holds_toFloat ((toRat_unitsRatio _ _).trans hrest.symm) ?_
  rw [hrounded]
  refine lt_of_le_of_lt (sub_le_self _ ?_) hd.toRat_lt
  exact mul_nonneg (Nat.cast_nonneg _) e.magnitude.toRat_nonneg

/-- A division rounded down, on numbers: the remainder is taken off and the rest divided, with a
rounding each time, and the quotient is the whole number next to it. -/
def floorQuotient (a b : ℚ) : ℕ :=
  ⌈nearestTo (nearestTo (⌊a / b⌋₊ * b) / b) - 1 / 2⌉₊

theorem ceil_sub_half (ha : 0 ≤ a) :
    ⌈a - 1 / 2⌉₊ = if 1 / 2 < a - ⌊a⌋₊ then ⌊a⌋₊ + 1 else ⌊a⌋₊ := by
  have hlow := Nat.floor_le ha
  have hhigh := Nat.lt_floor_add_one a
  split
  · rw [Nat.ceil_eq_iff (Nat.succ_ne_zero _), Nat.succ_sub_one]
    push_cast
    constructor <;> linarith
  · rcases Nat.eq_zero_or_pos ⌊a⌋₊ with hzero | hpos
    · have hfloor : (⌊a⌋₊ : ℚ) = 0 := Nat.cast_eq_zero.2 hzero
      rw [hzero, Nat.ceil_eq_zero]
      linarith
    · rw [Nat.ceil_eq_iff hpos.ne', Nat.cast_pred hpos]
      constructor <;> linarith

/-- A double is corrected to the whole number next to it. -/
theorem Holds.correctedWhole (hx : Holds x a) :
    Holds (if x - PocketCalculator.floorFloat x > 0.5 then PocketCalculator.floorFloat x + 1
      else PocketCalculator.floorFloat x) ⌈a - 1 / 2⌉₊ := by
  have hwhole := hx.floorFloat
  have hfract := hx.sub hwhole (Nat.floor_le hx.nonneg)
  rw [nearestTo_eq hx.isRepresentable.fract] at hfract
  have hiff := holds_half.lt_iff hfract
  rw [ceil_sub_half hx.nonneg]
  by_cases hgt : 1 / 2 < a - ⌊a⌋₊
  · -- a whole number has nothing behind the point, so that the number is below `2 ^ 53`
    have hnext : ⌊a⌋₊ + 1 ≤ 2 ^ 53 := by
      obtain ⟨n, rfl⟩ | hlt := hx.isRepresentable.exists_natCast_or_lt
      · rw [Nat.floor_natCast, sub_self] at hgt
        exact absurd hgt (by norm_num)
      · exact (Nat.floor_lt hx.nonneg).2 (by exact_mod_cast hlt)
    have hadd := hwhole.add holds_one
    rw [← Nat.cast_succ, nearestTo_eq (isRepresentable_natCast hnext)] at hadd
    rw [if_pos (hiff.2 hgt), if_pos hgt]
    exact hadd (natCast_lt_infinity hnext)
  · rw [if_neg (mt hiff.1 hgt), if_neg hgt]
    exact hwhole

theorem Holds.divMultiple {r : Float} (hx : Holds x a) (hy : Holds y b) (hb : 1 ≤ b)
    (hr : Holds r (a - ⌊a / b⌋₊ * b)) :
    Holds ((x - r) / y) (nearestTo (nearestTo (⌊a / b⌋₊ * b) / b)) := by
  have hb0 : 0 < b := one_pos.trans_le hb
  obtain ⟨hmul, -⟩ := floor_div_bounds hx.nonneg hb0
  have hmul0 : 0 ≤ (⌊a / b⌋₊ : ℚ) * b := mul_nonneg (Nat.cast_nonneg _) hb0.le
  have hquotient : nearestTo (⌊a / b⌋₊ * b) / b ≤ a :=
    (div_le_self (nearestTo_nonneg _) hb).trans (nearestTo_le hmul0 hx.isRepresentable hmul)
  have hdiff := hx.sub hr (sub_le_self a hmul0)
  rw [sub_sub_cancel] at hdiff
  exact hdiff.div hy hb0 (nearestTo_lt_of_le (div_nonneg (nearestTo_nonneg _) hb0.le)
    hx.isRepresentable hquotient hx.lt_infinity)

/-- The division of doubles that is rounded down. -/
theorem Holds.floorDivide (hx : Holds x a) (hy : Holds y b) (hb : 1 ≤ b) :
    Holds (floorDivide x y) (floorQuotient a b) := by
  have hb0 : 0 < b := one_pos.trans_le hb
  have hsign : Holds (x / y) (nearestTo (a / b)) :=
    hx.div hy hb0 (nearestTo_lt_of_le (div_nonneg hx.nonneg hb0.le) hx.isRepresentable
      (div_le_self hx.nonneg hb) hx.lt_infinity)
  obtain ⟨d, hd, hdneg, hda⟩ := id hx
  obtain ⟨e, he, heneg, heb⟩ := id hy
  have hm : 0 < e.mantissa := by
    refine Nat.pos_of_ne_zero fun hzero => hb0.ne' ?_
    rw [← heb, e.toRat_magnitude, hzero, Nat.cast_zero, zero_mul]
  have hrest := holds_exactRemainder (Dyadic.canonical_of_ofFloat? hd)
    (Dyadic.canonical_of_ofFloat? he) hdneg hm
  rw [hda, heb] at hrest
  have hq := hx.divMultiple hy hb hrest
  rw [PocketCalculator.floorDivide, hd, he]
  dsimp only
  rw [hdneg, heneg, bne_self_eq_false, Bool.and_false]
  simp only [Bool.false_eq_true, if_false]
  rw [floorQuotient]
  generalize nearestTo (nearestTo (⌊a / b⌋₊ * b) / b) = c at hq
  by_cases hc : c = 0
  · have hzero : ((x - exactRemainder d e) / y != 0) = false := by
      rw [bne, hq.beq_zero_iff.2 hc]
      rfl
    have hceil : ⌈c - 1 / 2⌉₊ = 0 := Nat.ceil_eq_zero.2 (by rw [hc]; norm_num)
    rw [if_neg (by rw [hzero]; exact Bool.false_ne_true), hsign.signBit, hceil, Nat.cast_zero]
    exact holds_zero
  · have hne : ((x - exactRemainder d e) / y != 0) = true := by
      rw [bne, Bool.not_eq_true', Bool.eq_false_iff]
      exact mt hq.beq_zero_iff.1 hc
    rw [if_pos hne]
    exact hq.correctedWhole

/-- A quotient whose multiple of the divisor is a double comes out as the whole part. -/
theorem floorQuotient_natCast {n : ℕ} (hn : 0 < n) (ha : 0 ≤ a) (hlt : a < 2 ^ 53) :
    floorQuotient a n = ⌊a / n⌋₊ := by
  have hn' : (0 : ℚ) < n := Nat.cast_pos.2 hn
  obtain ⟨hmul, -⟩ := floor_div_bounds ha hn'
  rw [floorQuotient]
  generalize ⌊a / n⌋₊ = k at hmul
  have hkn : k * n ≤ 2 ^ 53 := by exact_mod_cast hmul.trans hlt.le
  have hk : k ≤ 2 ^ 53 := (Nat.le_mul_of_pos_right k hn).trans hkn
  rw [← Nat.cast_mul, nearestTo_eq (isRepresentable_natCast hkn), Nat.cast_mul,
    mul_div_cancel_right₀ _ hn'.ne', nearestTo_eq (isRepresentable_natCast hk),
    ceil_sub_half (Nat.cast_nonneg k), Nat.floor_natCast, sub_self, if_neg (by norm_num)]

end PocketCalculator
