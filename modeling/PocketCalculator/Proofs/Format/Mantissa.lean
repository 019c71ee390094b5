import PocketCalculator.Proofs.Format.EngineeringExponent
import PocketCalculator.Proofs.Number.Significant

/-! # The mantissa of the engineering format

The shortest decimal of a double lies between the same two powers of ten as the double itself
(`Dyadic.shortest_bounds`).  With the point moved it is from one up to a thousand, but for the error
of the exponent: `movePoint_spec`. -/

namespace PocketCalculator

open RoundingInterval

/-! ### The decade of the shortest decimal -/

theorem Ratio.toRat_floor_bounds (r : Ratio) {n : Nat} :
    (n ≤ r.toRat → n ≤ r.floor) ∧ (r.toRat < n → r.floor + 1 ≤ n) := by
  constructor
  · intro h
    have hlt := h.trans_lt r.lt_floor_add_one
    exact Nat.lt_succ_iff.1 (by exact_mod_cast hlt)
  · intro h
    exact_mod_cast r.floor_le.trans_lt h

/-- What a grid offers lies between the powers of ten around the ratio. -/
theorem Shortest.bounds_of_onGrid? {i : RoundingInterval} {r : Ratio} {count : Nat} {c : Decimal}
    (hr : r.num ≠ 0) (hcount : 0 < count) (h : onGrid? i r count = some c) :
    10 ^ r.decimalExponent ≤ c.magnitude.toRat ∧
      c.magnitude.toRat ≤ 10 ^ (r.decimalExponent + 1) := by
  obtain ⟨k, hk, rfl, -⟩ := exists_of_onGrid? h
  obtain ⟨hlow, hhigh⟩ := Ratio.decimalExponent_spec hr
  rw [Decimal.toRat_magnitude_normalize, Decimal.toRat_magnitude]
  dsimp only
  rw [← Ratio.lastExponent] at hk ⊢
  have hlast := r.lastExponent_le hcount
  have hunits := r.toRat_lastUnits count
  generalize r.lastExponent count = last at hk hlast hunits
  generalize r.mulTenPow (-last) = units at hk hunits
  have hpos : (0 : ℚ) < 10 ^ last := zpow_pos (by norm_num) _
  have hlow' := Ratio.ten_zpow_eq_mul hlast
  have hhigh' := Ratio.ten_zpow_eq_mul (by omega : last ≤ r.decimalExponent + 1)
  rw [← hunits, hlow'] at hlow
  rw [← hunits, hhigh'] at hhigh
  rw [hlow', hhigh']
  have hfloor := units.toRat_floor_bounds.1 (le_of_mul_le_mul_right hlow hpos)
  have hfloor' := units.toRat_floor_bounds.2 (lt_of_mul_lt_mul_right hhigh hpos.le)
  exact ⟨mul_le_mul_of_nonneg_right (Nat.cast_le.2 (by omega)) hpos.le,
    mul_le_mul_of_nonneg_right (Nat.cast_le.2 (by omega)) hpos.le⟩

namespace Dyadic

variable {d : Dyadic}

/-- The shortest decimal lies between the powers of ten around the double. -/
theorem shortest_bounds (hc : d.Canonical) (hm : 0 < d.mantissa) :
    10 ^ d.magnitude.decimalExponent ≤ d.shortest.magnitude.toRat ∧
      d.shortest.magnitude.toRat ≤ 10 ^ (d.magnitude.decimalExponent + 1) := by
  obtain ⟨n, hn⟩ := Shortest.exists_onGrid?_eq hc hm
  have hshortest : d.shortest.magnitude = (Shortest.ofPositive d).magnitude := by
    rw [shortest, if_neg hm.ne']
    rfl
  rw [hshortest]
  exact Shortest.bounds_of_onGrid? (d.magnitude_num_pos hm).ne' n.succ_pos hn

/-! ### Next to a power of a thousand -/

/-- A multiple of `p` is not near `n` unless the remainder of `n` is next to nothing, or next to
`p`. -/
theorem mul_far_of_mod {n p : ℕ} (hp : 0 < p) (hlow : 43 * n < n % p * 10 ^ 14)
    (hhigh : 43 * n < (p - n % p) * 10 ^ 14) (k : ℕ) :
    k * p * 10 ^ 14 < n * (10 ^ 14 - 42) ∨ n * 10 ^ 14 < k * p * (10 ^ 14 - 42) := by
  have hdiv := Nat.div_add_mod' n p
  have hmod := Nat.mod_lt n hp
  rcases le_or_gt k (n / p) with hle | hgt
  · have hmul := Nat.mul_le_mul_right p hle
    generalize n / p * p = z at hdiv hmul
    generalize k * p = y at hmul ⊢
    omega
  · have hmul := Nat.mul_le_mul_right p hgt
    rw [Nat.succ_mul] at hmul
    generalize n / p * p = z at hdiv hmul
    generalize k * p = y at hmul ⊢
    omega

/-- A small multiple of a unit `1 / n` next to a power of a thousand is next to one of four powers
only. -/
theorem exists_thousand_pow {n m : ℕ} {q : ℤ} (hn : 2 * 10 ^ 323 < n) (hn' : 2 * n < 10 ^ 324)
    (hm : 0 < m) (hm' : m < 10 ^ 14) (hlow : 10 ^ (3 * q) * (1 - 42 / 10 ^ 14) ≤ (m : ℚ) / n)
    (hhigh : (m : ℚ) / n * (1 - 42 / 10 ^ 14) ≤ 10 ^ (3 * q)) :
    ∃ i ∈ [104, 105, 106, 107], (10 : ℚ) ^ (3 * q) = 1 / (10 ^ (3 * i) : ℕ) := by
  have hpos : (0 : ℚ) < 10 ^ (3 * q) := zpow_pos (by norm_num) _
  have hnpos : (0 : ℚ) < n := Nat.cast_pos.2 ((Nat.zero_le _).trans_lt hn)
  have hhalf : (1 : ℚ) / 2 ≤ 1 - 42 / 10 ^ 14 := by norm_num
  have hq₁ : q ≤ -104 := by
    by_contra hq
    have hle : (10 : ℚ) ^ (-309 : ℤ) ≤ 10 ^ (3 * q) := zpow_le_zpow_right₀ (by norm_num) (by omega)
    have hpow : (10 : ℚ) ^ (-309 : ℤ) * 10 ^ 323 = 10 ^ 14 := by
      rw [← zpow_natCast, ← zpow_add₀ (by norm_num)]
      rfl
    have hnQ : 2 * 10 ^ 323 < (n : ℚ) := by exact_mod_cast hn
    have hmQ : (m : ℚ) < 10 ^ 14 := by exact_mod_cast hm'
    have := (le_div_iff₀ hnpos).1 hlow
    have := mul_le_mul (mul_le_mul hle hhalf (by norm_num) hpos.le) hnQ.le
      (mul_nonneg (by norm_num) (pow_nonneg (by norm_num) _)) (by positivity)
    have hproduct (a b : ℚ) : a * (1 / 2) * (2 * b) = a * b := by ring
    rw [hproduct, hpow] at this
    linarith
  have hq₂ : -107 ≤ q := by
    by_contra hq
    have hle : (10 : ℚ) ^ (3 * q) ≤ 10 ^ (-324 : ℤ) := zpow_le_zpow_right₀ (by norm_num) (by omega)
    have hpow : (10 : ℚ) ^ (-324 : ℤ) * 10 ^ 324 = 1 := by
      rw [← zpow_natCast, ← zpow_add₀ (by norm_num)]
      rfl
    have hnQ : 2 * (n : ℚ) < 10 ^ 324 := by exact_mod_cast hn'
    have hmQ : (1 : ℚ) ≤ m := by exact_mod_cast hm
    have hmore := mul_le_mul hle hnQ.le (by positivity) (zpow_pos (by norm_num) _).le
    rw [hpow] at hmore
    rw [div_mul_eq_mul_div, div_le_iff₀ hnpos] at hhigh
    have := le_mul_of_one_le_left (by norm_num : (0 : ℚ) ≤ 1 - 42 / 10 ^ 14) hmQ
    norm_num1 at this hhigh
    linarith only [this, hhigh, hmore]
  obtain ⟨i, hi⟩ := Int.eq_ofNat_of_zero_le (by omega : 0 ≤ -q)
  refine ⟨i, ?_, ?_⟩
  · simp only [List.mem_cons, List.not_mem_nil, or_false]
    omega
  · rw [one_div, Nat.cast_pow, Nat.cast_ofNat, ← zpow_natCast, ← zpow_neg]
    congr 1
    push_cast
    omega

/-- The bottom of the range holds no number next to a power of a thousand. -/
theorem mod_thousand_pow : ∀ i ∈ [104, 105, 106, 107],
    43 * twoPow 1074 < twoPow 1074 % 10 ^ (3 * i) * 10 ^ 14 ∧
      43 * twoPow 1074 < (10 ^ (3 * i) - twoPow 1074 % 10 ^ (3 * i)) * 10 ^ 14 := by
  decide +kernel

theorem twoPow_bounds : 2 * 10 ^ 323 < twoPow 1074 ∧ 2 * twoPow 1074 < 10 ^ 324 := by
  decide +kernel

section near

variable {q : ℤ} (hc : d.Canonical) (hm : 0 < d.mantissa)
  (hlow : 10 ^ (3 * q) * (1 - 42 / 10 ^ 14) ≤ d.magnitude.toRat)
  (hhigh : d.magnitude.toRat * (1 - 42 / 10 ^ 14) ≤ 10 ^ (3 * q))

include hc hm hlow hhigh

/-- The numbers with few bits are not next to a power of a thousand. -/
theorem mantissa_ge_of_near : 10 ^ 14 ≤ d.mantissa := by
  by_contra hlt
  have hlt := not_le.1 hlt
  have hexponent : d.exponent = leastExponent :=
    hc.hidden.resolve_right fun h => by
      norm_num at hlt
      omega
  have hvalue : d.magnitude.toRat = d.mantissa / twoPow 1074 := by
    rw [toRat_magnitude, hexponent, leastExponent, zpow_neg, ← div_eq_mul_inv, Ratio.cast_twoPow,
      ← zpow_natCast]
    rfl
  rw [hvalue] at hlow hhigh
  obtain ⟨hn, hn'⟩ := twoPow_bounds
  have hmod := mod_thousand_pow
  generalize twoPow 1074 = n at hn hn' hmod hlow hhigh
  obtain ⟨i, hi, hpow⟩ := exists_thousand_pow hn hn' hm hlt hlow hhigh
  have hnpos : (0 : ℚ) < n := Nat.cast_pos.2 ((Nat.zero_le _).trans_lt hn)
  have hp : 0 < 10 ^ (3 * i) := Nat.pow_pos (by norm_num)
  obtain ⟨hbelow, habove⟩ := hmod i hi
  rw [hpow] at hlow hhigh
  generalize 10 ^ (3 * i) = p at hp hbelow habove hlow hhigh
  have hpQ : (0 : ℚ) < p := Nat.cast_pos.2 hp
  rw [one_div_mul_eq_div, div_le_div_iff₀ hpQ hnpos] at hlow
  rw [div_mul_eq_mul_div, div_le_div_iff₀ hnpos hpQ] at hhigh
  rcases mul_far_of_mod hp hbelow habove d.mantissa with hfar | hfar <;>
  · have hfar' := (Nat.cast_lt (α := ℚ)).2 hfar
    push_cast at hfar'
    linarith

theorem shortest_near : d.magnitude.toRat * (1 - 1 / 10 ^ 14) ≤ d.shortest.magnitude.toRat ∧
    d.shortest.magnitude.toRat ≤ d.magnitude.toRat * (1 + 1 / 10 ^ 14) := by
  have htwo : (0 : ℚ) < 2 ^ d.exponent := zpow_pos two_pos _
  have hbits : (10 ^ 14 : ℚ) ≤ d.mantissa := by
    exact_mod_cast mantissa_ge_of_near hc hm hlow hhigh
  obtain ⟨u, hu, hdown, hup, -⟩ := steps_of_contains hm (contains_shortest hc hm)
  have hreach := reach_le d
  rw [hu, toRat_magnitude, mul_right_comm _ _ (1 - 1 / 10 ^ 14 : ℚ),
    mul_right_comm _ _ (1 + 1 / 10 ^ 14 : ℚ)]
  norm_num1 at hbits
  exact ⟨mul_le_mul_of_nonneg_right (by linarith) htwo.le,
    mul_le_mul_of_nonneg_right (by linarith) htwo.le⟩

end near

/-- The shortest decimal is in the range of the exponent, but for the error of the exponent. -/
theorem shortest_bounds_of_near {q : ℤ} (hc : d.Canonical) (hm : 0 < d.mantissa)
    (hlow : 10 ^ (3 * q) * (1 - 42 / 10 ^ 14) ≤ d.magnitude.toRat)
    (hhigh : d.magnitude.toRat * (1 - 42 / 10 ^ 14) ≤ 10 ^ (3 * q + 3)) :
    10 ^ (3 * q) * (1 - 43 / 10 ^ 14) ≤ d.shortest.magnitude.toRat ∧
      d.shortest.magnitude.toRat ≤ 10 ^ (3 * q + 3) * (1 + 44 / 10 ^ 14) := by
  have hnum := (d.magnitude_num_pos hm).ne'
  have hten (k : ℤ) : (0 : ℚ) < 10 ^ k := zpow_pos (by norm_num) _
  have hnonneg := d.magnitude.toRat_nonneg
  obtain ⟨hdecade, hdecade'⟩ := shortest_bounds hc hm
  constructor
  · rcases lt_or_ge d.magnitude.toRat (10 ^ (3 * q)) with hlt | hge
    · have hnear := (shortest_near hc hm hlow
        ((mul_le_of_le_one_right hnonneg (by norm_num)).trans hlt.le)).1
      have := hten (3 * q)
      norm_num1 at hlow hnear ⊢
      linarith
    · have hle := (Ratio.le_decimalExponent_iff hnum).2 hge
      refine (mul_le_of_le_one_right (hten _).le (by norm_num)).trans (le_trans ?_ hdecade)
      exact zpow_le_zpow_right₀ (by norm_num) hle
  · rcases lt_or_ge d.magnitude.toRat (10 ^ (3 * q + 3)) with hlt | hge
    · have hle := (Ratio.decimalExponent_lt_iff hnum).2 hlt
      refine hdecade'.trans (le_trans ?_ (le_mul_of_one_le_right (hten _).le (by norm_num)))
      exact zpow_le_zpow_right₀ (by norm_num) (by omega)
    · have hthree : 3 * q + 3 = 3 * (q + 1) := by ring
      rw [hthree] at hhigh hge ⊢
      have hnear := (shortest_near hc hm
        ((mul_le_of_le_one_right (hten _).le (by norm_num)).trans hge) hhigh).2
      have := hten (3 * (q + 1))
      norm_num1 at hhigh hnear ⊢
      linarith

end Dyadic

/-! ### The mantissa -/

theorem Decimal.exists_toFloat {c : Decimal} (hlow : 1 / 10 ≤ c.magnitude.toRat)
    (hhigh : c.magnitude.toRat ≤ 10000) : ∃ a, Dyadic.ofFloat? c.toFloat = some a ∧
      a.negative = c.negative ∧ a.magnitude.toRat = c.magnitude.nearest := by
  rw [toFloat_eq]
  · exact Ratio.ofFloat?_toFloat (Ratio.nearest_lt_of_le (hhigh.trans (by norm_num))) c.negative
  · calc (10 : ℚ) ^ (-400 : ℤ) < 10 ^ (-1 : ℤ) := zpow_lt_zpow_right₀ (by norm_num) (by norm_num)
      _ = 1 / 10 := by norm_num
      _ ≤ c.magnitude.toRat := hlow
  · calc c.magnitude.toRat ≤ 10000 := hhigh
      _ = 10 ^ (4 : ℤ) := by norm_num
      _ < 10 ^ (400 : ℤ) := zpow_lt_zpow_right₀ (by norm_num) (by norm_num)

/-- The mantissa is below one or above a thousand only by the error of the exponent. -/
theorem movePoint_spec {log10 : Float → Float} (hlog : IsCommonLogarithm log10) {x : Float}
    {d : Dyadic} (hx : Dyadic.ofFloat? x = some d) (hm : 0 < d.mantissa) :
    ∃ a, Dyadic.ofFloat? (movePoint d (engineeringExponent log10 x)) = some a ∧
      a.negative = d.negative ∧ 1 - 9 / (2 * 10 ^ 13) ≤ a.magnitude.toRat ∧
      a.magnitude.toRat ≤ 1000 + 9 / (2 * 10 ^ 10) := by
  obtain ⟨q, hexponent, hlow, hhigh⟩ := engineeringExponent_spec hlog hx hm
  obtain ⟨hshortest, hshortest'⟩ :=
    Dyadic.shortest_bounds_of_near (Dyadic.canonical_of_ofFloat? hx) hm hlow hhigh
  have hten : (0 : ℚ) < 10 ^ (3 * q) := zpow_pos (by norm_num) _
  rw [hexponent, movePoint]
  generalize hmoved : ({ d.shortest with exponent := d.shortest.exponent - 3 * q } : Decimal) = c
  have hvalue : d.shortest.magnitude.toRat = 10 ^ (3 * q) * c.magnitude.toRat := by
    rw [← hmoved, Decimal.toRat_magnitude, Decimal.toRat_magnitude, mul_left_comm,
      ← zpow_add₀ (by norm_num), add_sub_cancel]
  have hnegative : c.negative = d.negative := by
    rw [← hmoved, ← d.negative_shortest]
  rw [hvalue] at hshortest hshortest'
  rw [zpow_add₀ (by norm_num), mul_assoc] at hshortest'
  have hc₁ := le_of_mul_le_mul_left hshortest hten
  have hc₂ := le_of_mul_le_mul_left hshortest' hten
  obtain ⟨a, ha, hanegative, havalue⟩ := Decimal.exists_toFloat (le_trans (by norm_num) hc₁)
    (hc₂.trans (by norm_num))
  have hnear := abs_le.1 (c.magnitude.abs_nearest_sub_le.trans
    (add_le_add_right Ratio.half_least_le _))
  refine ⟨a, ha, hanegative.trans hnegative, ?_, ?_⟩ <;>
  · rw [havalue]
    norm_num1 at hc₁ hc₂ hnear ⊢
    linarith

end PocketCalculator
