import PocketCalculator.Format.Fixed
import PocketCalculator.Proofs.Number.Recorded

/-! # Correct rounding in the fixed format

The decimal that the recorded text of a double writes is rounded to the nearest multiple of a power
of ten, a half going away from zero (`isNearestAway_round`).  A number is refused exactly when the
rounded one has too many digits: the check that is made before rounding finds nothing else
(`tenPow_le_of_isTooLong`), and with up to 91 places nothing at all (`toPlaces_shortest_lt`).

What is shown is a plain numeral with the places asked for, whose sign is that of the number shown.
This is `formatFixed_rounds`. -/

namespace PocketCalculator

open Ratio (decimalLength)

/-! ### Rounding away from zero -/

theorem roundDiv_awayFromZero_lt (num : Nat) {den : Nat} (h : 0 < den) :
    2 * num < 2 * (roundDiv .awayFromZero num den * den) + den := by
  have hd := Nat.div_add_mod num den
  rw [Nat.mul_comm] at hd
  have hm := Nat.mod_lt num h
  have hs : (num / den + 1) * den = num / den * den + den := by
    rw [Nat.add_mul, Nat.one_mul]
  unfold roundDiv
  simp only [Tie.goesUp]
  split
  · omega
  · split
    · omega
    · simp only [if_true]
      omega

namespace Ratio

theorem lt_round_awayFromZero_add_half (r : Ratio) :
    r.toRat < r.round .awayFromZero + 1 / 2 := by
  have hd := r.den_cast_pos
  have hm := r.toRat_mul_den
  have h : 2 * (r.num : ℚ) < 2 * (r.round .awayFromZero * r.den) + r.den := by
    exact_mod_cast roundDiv_awayFromZero_lt r.num r.den_pos
  refine lt_of_mul_lt_mul_right ?_ hd.le
  linarith

end Ratio

/-- The whole number nearest to a number, and of two that are equally near the one farther away from
zero. -/
def IsNearestAway (q : ℚ) (z : ℤ) : Prop :=
  ∀ k : ℤ, |q - z| ≤ |q - k| ∧ (|q - k| = |q - z| → |k| ≤ |z|)

theorem IsNearestAway.neg {q : ℚ} {z : ℤ} (h : IsNearestAway q z) : IsNearestAway (-q) (-z) := by
  intro k
  have key : ∀ j : ℤ, |-q - j| = |q - (-j : ℤ)| := by
    intro j
    rw [← abs_neg]
    congr 1
    push_cast
    ring
  have hk := h (-k)
  rw [key, key, neg_neg, abs_neg]
  rwa [abs_neg k] at hk

theorem isNearestAway_of_bounds {q : ℚ} {n : ℕ} (hq : 0 ≤ q) (hlow : -(1 / 2) ≤ q - n)
    (hhigh : q - n < 1 / 2) : IsNearestAway q n := by
  intro k
  rw [Int.cast_natCast]
  have hhalf : |q - n| ≤ 1 / 2 := abs_le.2 ⟨hlow, hhigh.le⟩
  rcases lt_trichotomy k n with hlt | rfl | hgt
  · have hk : (k : ℚ) + 1 ≤ n := by exact_mod_cast hlt
    refine ⟨hhalf.trans (le_trans ?_ (le_abs_self _)), fun heq => ?_⟩
    · linarith
    · -- a number as near as the nearest one is not below zero
      have hle := le_abs_self (q - k)
      have hpos : (-1 : ℚ) < k := by linarith
      have hpos' : (-1 : ℤ) < k := by exact_mod_cast hpos
      rw [abs_of_nonneg (by omega), Nat.abs_cast]
      exact hlt.le
  · simp
  · have hk : (n : ℚ) + 1 ≤ k := by exact_mod_cast hgt
    have hfar : |q - n| < |q - k| := by
      rw [abs_sub_comm q k]
      refine lt_of_le_of_lt hhalf (lt_of_lt_of_le ?_ (le_abs_self _))
      linarith
    exact ⟨hfar.le, fun heq => absurd heq hfar.ne'⟩

/-- A ratio with a sign rounds to its nearest whole number, a half going away from zero. -/
theorem isNearestAway_round (negative : Bool) (r : Ratio) :
    IsNearestAway (signed negative r.toRat) (signedWhole negative (r.round .awayFromZero)) := by
  obtain ⟨hlow, -⟩ := abs_le.1 (r.abs_sub_round_le .awayFromZero)
  have hhigh := r.lt_round_awayFromZero_add_half
  have h := isNearestAway_of_bounds r.toRat_nonneg hlow (by linarith)
  cases negative with
  | false => exact h
  | true => exact h.neg

/-! ### Numbers with too many digits -/

theorem shortest_lt {d : Dyadic} (hc : d.Canonical) : d.shortest.magnitude.toRat < 2 * 10 ^ 308 := by
  by_cases hm : d.mantissa = 0
  · rw [Dyadic.shortest, if_pos hm, Decimal.toRat_magnitude]
    norm_num
  · obtain ⟨-, hupper, -⟩ := (RoundingInterval.contains_iff _).1
      (Dyadic.contains_shortest hc (Nat.pos_of_ne_zero hm))
    calc d.shortest.magnitude.toRat ≤ 2 ^ 1024 :=
          hupper.trans (hc.upper_le (Nat.pos_of_ne_zero hm))
      _ < 2 * 10 ^ 308 := by exact_mod_cast (by decide +kernel : 2 ^ 1024 < 2 * 10 ^ 308)

section rounding

variable (c : Decimal) (places : Nat)

/-- What is too long before it is rounded is so afterwards. -/
theorem tenPow_le_of_isTooLong (h : isTooLong c places = true) :
    tenPow greatestFixedLength ≤ (c.toPlaces places).coefficient := by
  rw [isTooLong, Bool.and_eq_true, decide_eq_true_eq, decide_eq_true_eq] at h
  obtain ⟨hc, hlong⟩ := h
  have hlead := (Decimal.leadingExponent_spec hc).1
  have hscale : (10 : ℚ) ^ (greatestFixedLength : ℤ) ≤ (c.magnitude.mulTenPow places).toRat := by
    rw [Ratio.toRat_mulTenPow]
    calc (10 : ℚ) ^ (greatestFixedLength : ℤ) ≤ 10 ^ (c.leadingExponent + places) :=
          zpow_le_zpow_right₀ (by norm_num) hlong
      _ = 10 ^ c.leadingExponent * 10 ^ (places : ℤ) := zpow_add₀ (by norm_num) _ _
      _ ≤ c.magnitude.toRat * 10 ^ (places : ℤ) := by
          exact mul_le_mul_of_nonneg_right hlead (zpow_pos (by norm_num) _).le
  have hround := (c.magnitude.mulTenPow places).lt_round_awayFromZero_add_half
  have hlt : (tenPow greatestFixedLength : ℚ) < (c.toPlaces places).coefficient + 1 := by
    rw [zpow_natCast, ← Ratio.cast_tenPow] at hscale
    change _ < ((c.magnitude.mulTenPow places).round .awayFromZero : ℚ) + 1
    linarith
  exact Nat.lt_succ_iff.1 (by exact_mod_cast hlt)

/-- With few places no double gets too many digits. -/
theorem toPlaces_shortest_lt {d : Dyadic} (hc : d.Canonical) (hp : places ≤ 91) :
    (d.shortest.toPlaces places).coefficient < tenPow greatestFixedLength := by
  have hround := (abs_le.1 ((d.shortest.magnitude.mulTenPow places).abs_sub_round_le
    .awayFromZero)).1
  rw [Ratio.toRat_mulTenPow, zpow_natCast] at hround
  have hscale : d.shortest.magnitude.toRat * 10 ^ places ≤ 2 * 10 ^ 399 := by
    calc d.shortest.magnitude.toRat * 10 ^ places ≤ 2 * 10 ^ 308 * 10 ^ 91 := by
          have hpow : (10 : ℚ) ^ places ≤ 10 ^ 91 := pow_le_pow_right₀ (by norm_num) hp
          exact mul_le_mul (shortest_lt hc).le hpow (pow_nonneg (by norm_num) _) (by positivity)
      _ = 2 * 10 ^ 399 := by rw [mul_assoc, ← pow_add]
  have hone : (1 : ℚ) ≤ 10 ^ 399 := one_le_pow₀ (by norm_num)
  have hlt : ((d.shortest.toPlaces places).coefficient : ℚ) < tenPow greatestFixedLength := by
    rw [Ratio.cast_tenPow, greatestFixedLength, pow_succ']
    change ((d.shortest.magnitude.mulTenPow places).round .awayFromZero : ℚ) < _
    generalize (10 : ℚ) ^ 399 = big at hscale hone ⊢
    linarith
  exact_mod_cast hlt

/-- A decimal is refused exactly when it is too long after it has been rounded. -/
theorem fixedDecimal_eq (hp : places ≤ greatestPlaces) : fixedDecimal c places =
    if tenPow greatestFixedLength ≤ (c.toPlaces places).coefficient then .error .tooManyDigits
    else .ok ⟨c.negative && (c.toPlaces places).coefficient ≠ 0, (c.toPlaces places).coefficient,
      -places⟩ := by
  rw [fixedDecimal, Nat.min_eq_left hp]
  by_cases hlong : isTooLong c places = true
  · rw [if_pos hlong, if_pos (tenPow_le_of_isTooLong c places hlong)]
  · rw [if_neg hlong]
    rfl

end rounding

/-! ### What is shown -/

/-- A rounded decimal is shown with its places, and with a minus if it is below zero. -/
theorem exists_text_of_fixed (negative : Bool) (k places : Nat) :
    ∃ t : PlainNumeral,
      t.text = Decimal.positional ⟨negative && k ≠ 0, k, -places⟩ ∧ t.fraction.length = places ∧
        t.value = signed negative k / 10 ^ places ∧ (t.text.head? = some '-' ↔ t.value < 0) := by
  obtain ⟨t, htext, hnegative, hlength, hvalue⟩ :=
    Decimal.exists_plainNumeral ⟨negative && k ≠ 0, k, -places⟩
  have hsize : (0 : ℚ) < 10 ^ places := pow_pos (by norm_num) _
  have hvalue' : t.value = signed negative k / 10 ^ places := by
    rw [hvalue, Decimal.value_eq, signed_mul, zpow_neg, zpow_natCast, ← div_eq_mul_inv]
    by_cases hk : k = 0
    · simp [hk]
    · simp [hk]
  refine ⟨t, htext, by simpa using hlength, hvalue', ?_⟩
  rw [t.head?_text, hnegative, hvalue', div_lt_iff₀ hsize, zero_mul,
    signed_neg_iff _ (Nat.cast_nonneg k)]
  simp

/-- Up to `10 ^ 5` places, the recorded decimal of a finite double is rounded to the nearest
multiple of the last place, a half going away from zero.  This number is refused exactly when it has
more than 400 digits, which takes more than 91 places, and otherwise shown as it is. -/
theorem formatFixed_rounds {x : Float} (hx : x.isFinite = true) {n : ℤ} (hn : n ≤ 100000) :
    ∃ c, Reading.decimal? (recordText x) = some c ∧
      ∃ z : ℤ, IsNearestAway (c.value * 10 ^ n.toNat) z ∧
        (formatFixed n x = .error .tooManyDigits ↔ 400 < decimalLength z.natAbs) ∧
        (n ≤ 91 → decimalLength z.natAbs ≤ 400) ∧
        (decimalLength z.natAbs ≤ 400 → ∃ t : PlainNumeral, formatFixed n x = .ok t.text ∧
          t.fraction.length = n.toNat ∧ t.value = z / 10 ^ n.toNat ∧
          (t.text.head? = some '-' ↔ t.value < 0)) := by
  obtain ⟨d, hd⟩ := Dyadic.exists_of_isFinite hx
  obtain ⟨c, hc, -, hvalue⟩ := exists_decimal?_recordText hd
  have hplaces : n.toNat ≤ greatestPlaces := by
    change n.toNat ≤ 1000026
    omega
  have hlimit : ¬placesLimit < n := by
    change ¬2000054 < n
    omega
  have hformat : formatFixed n x = (fixedDecimal d.shortest n.toNat).map Decimal.positional := by
    rw [formatFixed, if_neg hlimit, hd]
  rw [fixedDecimal_eq _ _ hplaces] at hformat
  have hround : IsNearestAway (d.shortest.value * 10 ^ n.toNat)
      (signedWhole d.shortest.negative (d.shortest.toPlaces n.toNat).coefficient) := by
    rw [Decimal.value, ← signed_mul, ← zpow_natCast, ← Ratio.toRat_mulTenPow]
    exact isNearestAway_round _ _
  have hsmall := @toPlaces_shortest_lt n.toNat d (Dyadic.canonical_of_ofFloat? hd)
  generalize (d.shortest.toPlaces n.toNat).coefficient = k at hformat hround hsmall
  have hlength : decimalLength k ≤ 400 ↔ k < tenPow greatestFixedLength :=
    Ratio.decimalLength_le_iff (by decide)
  refine ⟨c, hc, _, hvalue ▸ hround, ?_⟩
  rw [natAbs_signedWhole]
  refine ⟨?_, fun hn91 => hlength.2 (hsmall (by omega)), fun hk => ?_⟩
  · rw [hformat, ← not_le, hlength, not_lt]
    split
    · rename_i hlong
      exact iff_of_true rfl hlong
    · rename_i hshort
      exact iff_of_false (fun h => by cases h) hshort
  · rw [if_neg (not_le.2 (hlength.1 hk))] at hformat
    obtain ⟨t, htext, hplaces, hvalue, hminus⟩ :=
      exists_text_of_fixed d.shortest.negative k n.toNat
    refine ⟨t, hformat.trans (congrArg _ htext.symm), hplaces, ?_, hminus⟩
    rw [hvalue, cast_signedWhole]

/-- A tie goes away from zero, and what rounds to zero loses its sign. -/
theorem formatFixed_rounds_tie :
    (-0.5 : Float).isFinite = true ∧ (-0.4 : Float).isFinite = true ∧ (0 : ℤ) ≤ 100000 ∧
      (formatFixed 0 (-0.5) = .ok "-1".toList ∧ IsNearestAway (-1 / 2) (-1)) ∧
      formatFixed 0 (-0.4) = .ok "0".toList ∧ IsNearestAway (-2 / 5) 0 := by
  have hshown {x : Float} {c : Decimal} {m : PlainNumeral} {z : ℤ} (hx : x.isFinite = true)
      (hc : Reading.decimal? (recordText x) = some c)
      (hm : (formatFixed 0 x).toOption = some m.text) (hz : m.value = z) :
      formatFixed 0 x = .ok m.text ∧ IsNearestAway c.value z := by
    obtain ⟨c', hc', z', hround, -, hshort, htext⟩ :=
      formatFixed_rounds hx (by decide : (0 : ℤ) ≤ 100000)
    obtain ⟨t, ht, -, hvalue, -⟩ := htext (hshort (by decide))
    rw [ht] at hm
    obtain rfl : c' = c := Option.some.inj (hc'.symm.trans hc)
    rw [PlainNumeral.value_eq_of_text_eq (Option.some.inj hm), hz, Int.toNat_zero, pow_zero,
      div_one, Int.cast_inj] at hvalue
    rw [Int.toNat_zero, pow_zero, mul_one, ← hvalue] at hround
    exact ⟨ht.trans (congrArg _ (Option.some.inj hm)), hround⟩
  have hone := @hshown (-0.5) ⟨true, 5, -1⟩
    ⟨true, ['1'], [], by simp, by simp [isAsciiDigit], by simp⟩ (-1) (by decide)
    (by decide +kernel) (by decide +kernel) (by decide +kernel)
  have hzero := @hshown (-0.4) ⟨true, 4, -1⟩
    ⟨false, ['0'], [], by simp, by simp [isAsciiDigit], by simp⟩ 0 (by decide)
    (by decide +kernel) (by decide +kernel) (by decide +kernel)
  rw [Decimal.value_eq] at hone hzero
  norm_num [signed] at hone hzero ⊢
  exact ⟨by decide, by decide, hone, hzero⟩

end PocketCalculator
