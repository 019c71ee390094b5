import PocketCalculator.Proofs.Format.Mantissa

/-! # The carry at a thousand

Whether a mantissa is carried is seen from its double alone: it is, exactly when it rounds to a
thousand (`roundsToThousand_iff`).  A carried mantissa, which may be above a thousand by the error of
the exponent, is divided by a thousand and rounded again.  Almost always it is not below one then;
the exceptions are the least carried mantissas for six numbers of digits: `div_thousand_spec`. -/

namespace PocketCalculator

/-! ### Counting down -/

/-- A mantissa above 512, counted down from a thousand. -/
theorem IsRepresentable.exists_below_thousand {a : ℚ} (ha : IsRepresentable a) (hlow : 512 < a)
    (hhigh : a ≤ 1000) : ∃ p : ℕ, a = 1000 - p / 2 ^ 43 := by
  obtain ⟨p, hp⟩ := @exists_sub_mul a ha (-43) (1000 * 2 ^ 43) (by norm_num; exact hlow)
    (by norm_num; exact hhigh)
  refine ⟨p, hp.trans ?_⟩
  norm_num
  ring

theorem IsRepresentable.exists_below_one {a : ℚ} (ha : IsRepresentable a) (hlow : 1 / 2 < a)
    (hhigh : a ≤ 1) : ∃ p : ℕ, a = 1 - p / 2 ^ 53 := by
  obtain ⟨p, hp⟩ := @exists_sub_mul a ha (-53) (2 ^ 53) (by norm_num; linarith)
    (by norm_num; exact hhigh)
  refine ⟨p, hp.trans ?_⟩
  norm_num
  ring

/-! ### Which mantissas are carried -/

/-- The double one thousand. -/
def thousand : Dyadic :=
  ⟨false, 1000 * 2 ^ 43, -43⟩

theorem ofFloat?_thousand : Dyadic.ofFloat? 1000 = some thousand := by
  decide

theorem toRat_thousand : thousand.magnitude.toRat = 1000 := by
  rw [Dyadic.toRat_magnitude, thousand]
  norm_num

section carry

variable {a : Dyadic} {count : Nat}

theorem Dyadic.toRat_significant (hm : 0 < a.mantissa) (count : Nat) :
    (a.significant count).magnitude.toRat = a.magnitude.rounded count := by
  rw [significant, if_neg hm.ne']
  rfl

theorem rounded_lt_of_lt_thousand (hc : a.Canonical) (hm : 0 < a.mantissa) (hcount : 0 < count)
    (h : a.magnitude.rounded count < 1000) : a.magnitude.rounded count < 1000 - 1 / 2 ^ 44 := by
  have hnum := (a.magnitude_num_pos hm).ne'
  have hthousand : (1000 : ℚ) = 10 ^ (3 : ℤ) := by norm_num
  have hlt : a.magnitude.toRat < 1000 := by
    by_contra hge
    rw [hthousand] at h hge
    exact absurd (Ratio.zpow_le_rounded hnum hcount (not_lt.1 hge)) (not_le.2 h)
  rcases le_or_gt a.magnitude.toRat (10 ^ (2 : ℤ)) with hsmall | hbig
  · refine (Ratio.rounded_le_zpow hnum hcount hsmall).trans_lt ?_
    norm_num
  · have hj : a.magnitude.decimalExponent = 2 := by
      rw [hthousand] at hlt
      have := (Ratio.decimalExponent_lt_iff hnum).2 hlt
      have := (Ratio.le_decimalExponent_iff hnum).2 hbig.le
      omega
    have hlast : a.magnitude.lastExponent count = 3 - count := by
      rw [Ratio.lastExponent, hj]
      ring
    rcases le_or_gt count 16 with hfew | hmany
    · have hunit : (10 : ℚ) ^ (-13 : ℤ) ≤ 10 ^ a.magnitude.lastExponent count :=
        zpow_le_zpow_right₀ (by norm_num) (by omega)
      rw [hthousand] at h
      have := Ratio.rounded_add_le (by omega) h
      norm_num at hunit this ⊢
      linarith
    · have hunit : (10 : ℚ) ^ a.magnitude.lastExponent count ≤ 10 ^ (-14 : ℤ) :=
        zpow_le_zpow_right₀ (by norm_num) (by omega)
      have hnear := (abs_le.1 (a.magnitude.abs_rounded_sub_le count)).2
      have hgap := @IsRepresentable.le_of_lt_mul _ hc.isRepresentable (-43) (1000 * 2 ^ 43)
        (by norm_num) (by norm_num; exact hlt)
      norm_num at hunit hgap ⊢
      linarith

/-- A mantissa is carried exactly when it rounds to a thousand. -/
theorem roundsToThousand_iff {x : Float} (hx : Dyadic.ofFloat? x = some a) (hm : 0 < a.mantissa)
    (hlow : 1 / 10 ≤ a.magnitude.toRat) (hhigh : a.magnitude.toRat ≤ 10000) :
    roundsToThousand x count = true ↔ 1000 ≤ a.magnitude.rounded (effectiveCount count) := by
  have hc := Dyadic.canonical_of_ofFloat? hx
  have hnum := (a.magnitude_num_pos hm).ne'
  have hcount := effectiveCount_pos count
  have hvalue := Dyadic.toRat_significant hm (effectiveCount count)
  have hR := @Ratio.zpow_le_rounded _ _ (-1) hnum hcount (by norm_num; linarith)
  have hR' := @Ratio.rounded_le_zpow _ _ 4 hnum hcount (by norm_num; linarith)
  have hgap := rounded_lt_of_lt_thousand hc hm hcount
  rw [← hvalue] at hR hR' hgap ⊢
  rw [roundsToThousand, hx]
  dsimp only
  generalize a.significant (effectiveCount count) = c at hR hR' hgap ⊢
  obtain ⟨b, hb, -, hbvalue⟩ :=
    Decimal.exists_toFloat (le_trans (by norm_num) hR) (hR'.trans_eq (by norm_num))
  rw [decide_eq_true_iff, Dyadic.double_le_iff ofFloat?_thousand (Dyadic.ofFloat?_abs hb) rfl rfl,
    toRat_thousand]
  change 1000 ≤ b.magnitude.toRat ↔ _
  rw [hbvalue]
  constructor
  · intro hge
    by_contra hlt
    have hnear := (abs_le.1 (@Ratio.abs_nearest_sub_le_of_lt c.magnitude (-43) (by decide)
      (by norm_num; linarith))).2
    have := hgap (not_le.1 hlt)
    norm_num at hnear this
    linarith
  · intro hge
    exact_mod_cast Ratio.le_nearest (@isRepresentable_natCast 1000 (by norm_num))
      (by exact_mod_cast hge)

end carry

/-! ### The carried mantissa -/

/-- The least double that rounds to a thousand with `n` digits: half a unit of the last digit below
it, in units of the double. -/
def leastCarried (n : ℕ) : ℚ :=
  1000 - (500 * 2 ^ 43 / 10 ^ n : ℕ) / 2 ^ 43

/-- The numbers of digits for which the least carried mantissa comes out below one. -/
def lostCounts : List ℕ :=
  [1, 2, 5, 7, 11, 12]

/-- The greatest distance from a thousand, in units of the double, divided by a thousand and
rounded, is more than half a unit of the last digit below one for six numbers of digits only. -/
theorem lost_iff {n : ℕ} (hn : 0 < n) :
    2 ^ 52 < (128 * (500 * 2 ^ 43 / 10 ^ n) + 62) / 125 * 10 ^ n ↔ n ∈ lostCounts := by
  rcases lt_or_ge n 16 with hlt | hge
  · interval_cases n <;> decide
  · have hzero : 500 * 2 ^ 43 / 10 ^ n = 0 := by
      have hpow : 10 ^ 16 ≤ 10 ^ n := Nat.pow_le_pow_right (by norm_num) hge
      exact Nat.div_eq_of_lt (lt_of_lt_of_le (by norm_num) hpow)
    rw [hzero]
    simp only [lostCounts, List.mem_cons, List.not_mem_nil, or_false]
    constructor
    · intro h
      norm_num at h
    · omega

/-- The distance from one after the division and the rounding, in terms of that from a thousand
before: more than half a unit of the last digit only for the greatest such distance. -/
theorem lost_iff_of_near {n p w : ℕ} (hn : 0 < n) (hp : p * 10 ^ n ≤ 500 * 2 ^ 43)
    (hw : 125 * w ≤ 128 * p + 62) (hw' : 128 * p ≤ 125 * w + 62) :
    2 ^ 52 < w * 10 ^ n ↔ n ∈ lostCounts ∧ p = 500 * 2 ^ 43 / 10 ^ n := by
  have hten : 0 < 10 ^ n := Nat.pow_pos (by norm_num)
  have hle : p ≤ 500 * 2 ^ 43 / 10 ^ n := (Nat.le_div_iff_mul_le hten).2 hp
  rcases eq_or_lt_of_le hle with heq | hlt
  · have hweq : w = (128 * p + 62) / 125 := by omega
    rw [← lost_iff hn, ← heq, ← hweq, and_iff_left rfl]
  · refine iff_of_false ?_ fun h => hlt.ne h.2
    have hnext : (p + 1) * 10 ^ n ≤ 500 * 2 ^ 43 := (Nat.le_div_iff_mul_le hten).1 hlt
    have hstep : 125 * (w * 10 ^ n) ≤ 128 * ((p + 1) * 10 ^ n) := by
      rw [← mul_assoc, ← mul_assoc]
      exact Nat.mul_le_mul_right _ (by omega)
    omega

theorem exists_nearest_thousandth {r : Ratio} {p : ℕ} (hr : r.toRat = (1000 - p / 2 ^ 43) / 1000)
    (hlow : 9 / 10 ≤ r.toRat) :
    ∃ w : ℕ, r.nearest = 1 - w / 2 ^ 53 ∧ 125 * w ≤ 128 * p + 62 ∧ 128 * p ≤ 125 * w + 62 := by
  rcases Nat.eq_zero_or_pos p with rfl | hp
  · refine ⟨0, ?_, by norm_num, by norm_num⟩
    rw [Ratio.nearest_eq (@isRepresentable_natCast 1 (by norm_num)) (by rw [hr]; norm_num)]
    norm_num
  · have hpQ : (1 : ℚ) ≤ p := by exact_mod_cast hp
    have hlt : r.toRat < 1 := by
      rw [hr]
      norm_num
      linarith
    have hnear := @Ratio.abs_nearest_sub_le_of_lt r (-53) (by decide) (by norm_num; exact hlt)
    have hle : r.nearest ≤ 1 := by
      exact_mod_cast Ratio.nearest_le (@isRepresentable_natCast 1 (by norm_num)) (by
        rw [Nat.cast_one]
        exact hlt.le)
    have hnum : r.num ≠ 0 := by
      rw [Ne, r.num_eq_zero_iff]
      linarith
    obtain ⟨hnear₁, hnear₂⟩ := abs_le.1 hnear
    norm_num1 at hnear₁ hnear₂
    obtain ⟨w, hw⟩ := (Ratio.isRepresentable_nearest hnum).exists_below_one (by linarith) hle
    rw [hw, hr] at hnear₁ hnear₂
    norm_num1 at hnear₁ hnear₂
    have h₁ : 250 * (w : ℚ) ≤ 256 * p + 125 := by linarith
    have h₂ : 256 * (p : ℚ) ≤ 250 * w + 125 := by linarith
    have h₁' : 250 * w ≤ 256 * p + 125 := by exact_mod_cast h₁
    have h₂' : 256 * p ≤ 250 * w + 125 := by exact_mod_cast h₂
    exact ⟨w, hw, by omega, by omega⟩

theorem exists_ofFloat?_div_thousand {x : Float} {a : Dyadic} (hx : Dyadic.ofFloat? x = some a)
    (hhigh : a.magnitude.toRat ≤ 1001) : ∃ (b : Dyadic) (r : Ratio),
      Dyadic.ofFloat? (x / 1000) = some b ∧ r.toRat = a.magnitude.toRat / 1000 ∧
      b.magnitude.toRat = r.nearest := by
  have hpos : 0 < thousand.mantissa := by decide
  have hq : (a.quotient thousand hpos).toRat = a.magnitude.toRat / 1000 := by
    rw [Dyadic.quotient, Ratio.toRat_div, toRat_thousand]
  obtain ⟨b, hb, -, hvalue⟩ := exists_ofFloat?_div hx ofFloat?_thousand hpos
    (Ratio.nearest_lt_of_le (by rw [hq]; norm_num; linarith))
  exact ⟨b, _, hb, hq, hvalue⟩

/-- A mantissa just below a thousand, divided by a thousand: the distances from a thousand and from
one, in units of the doubles. -/
theorem exists_div_thousand {x : Float} {a : Dyadic} (hx : Dyadic.ofFloat? x = some a)
    (hlow : 950 ≤ a.magnitude.toRat) (hhigh : a.magnitude.toRat ≤ 1000) :
    ∃ (b : Dyadic) (p w : ℕ), Dyadic.ofFloat? (x / 1000) = some b ∧
      a.magnitude.toRat = 1000 - p / 2 ^ 43 ∧ b.magnitude.toRat = 1 - w / 2 ^ 53 ∧
      125 * w ≤ 128 * p + 62 ∧ 128 * p ≤ 125 * w + 62 := by
  obtain ⟨p, hp⟩ := (Dyadic.canonical_of_ofFloat? hx).isRepresentable.exists_below_thousand
    (by linarith) hhigh
  obtain ⟨b, r, hb, hr, hvalue⟩ := exists_ofFloat?_div_thousand hx (by linarith)
  obtain ⟨w, hw, hw₁, hw₂⟩ := exists_nearest_thousandth (hr.trans (by rw [hp]))
    (by rw [hr]; linarith)
  exact ⟨b, p, w, hb, hp, hvalue.trans hw, hw₁, hw₂⟩

/-- A number below one rounds to less than one when it is more than half a unit of the last digit
below it. -/
theorem rounded_lt_one_iff {b : Dyadic} {count w : ℕ} (hb : 0 < b.magnitude.toRat)
    (hcount : 0 < count) (hw : b.magnitude.toRat = 1 - w / 2 ^ 53) :
    b.magnitude.rounded count < 1 ↔ 2 ^ 52 < w * 10 ^ count := by
  have hnum := Ratio.num_ne_zero hb
  have h := @Ratio.rounded_lt_iff _ _ 0 hnum hcount
  rw [zpow_zero, one_mul, hw, sub_lt_sub_iff_left,
    div_lt_div_iff₀ (by positivity) (by norm_num)] at h
  rw [h, ← Nat.cast_lt (α := ℚ)]
  push_cast
  constructor <;> intro h <;> linarith

/-- A mantissa that is carried from below a thousand rounds to less than one only when it is the
least one that is carried, for six numbers of digits. -/
theorem div_thousand_spec_of_le {x : Float} {a : Dyadic} {count : ℕ}
    (hx : Dyadic.ofFloat? x = some a) (hcount : 0 < count)
    (hlow : 1000 * (1 - 1 / (2 * 10 ^ count)) ≤ a.magnitude.toRat)
    (hhigh : a.magnitude.toRat ≤ 1000) :
    ∃ b, Dyadic.ofFloat? (x / 1000) = some b ∧ 9 / 10 ≤ b.magnitude.toRat ∧
      b.magnitude.toRat ≤ 1 ∧ (b.magnitude.rounded count < 1 ↔
        count ∈ lostCounts ∧ a.magnitude.toRat = leastCarried count) := by
  have hten : (10 : ℚ) ≤ 10 ^ count := le_self_pow₀ (by norm_num) (by omega)
  have hcut : (1 : ℚ) / (2 * 10 ^ count) ≤ 1 / 20 :=
    one_div_le_one_div_of_le (by norm_num) (by linarith)
  obtain ⟨b, p, w, hb, hp, hw, hw₁, hw₂⟩ := exists_div_thousand hx (by linarith) hhigh
  have hp' : p * 10 ^ count ≤ 500 * 2 ^ 43 := by
    have hdeficit : (p : ℚ) / 2 ^ 43 ≤ 500 / 10 ^ count := by
      have : 1000 * (1 / (2 * (10 : ℚ) ^ count)) = 500 / 10 ^ count := by
        field_simp
        norm_num
      linarith
    rw [div_le_div_iff₀ (by norm_num) (by positivity)] at hdeficit
    exact_mod_cast hdeficit
  have hge : 9 / 10 ≤ b.magnitude.toRat := by
    have hw₁' : 125 * (w : ℚ) ≤ 128 * p + 62 := by exact_mod_cast hw₁
    rw [hw]
    norm_num at hp ⊢
    linarith
  have hle : b.magnitude.toRat ≤ 1 := by
    rw [hw]
    exact sub_le_self 1 (by positivity)
  have hleast : a.magnitude.toRat = leastCarried count ↔ p = 500 * 2 ^ 43 / 10 ^ count := by
    rw [hp, leastCarried, sub_right_inj, div_left_inj' (by norm_num), Nat.cast_inj]
  refine ⟨b, hb, hge, hle, ?_⟩
  rw [rounded_lt_one_iff (by linarith) hcount hw, hleast]
  exact lost_iff_of_near hcount hp' hw₁ hw₂

/-- A carried mantissa comes out next to one, and rounds to less than one only when it is the least
one that is carried, for six numbers of digits. -/
theorem div_thousand_spec {x : Float} {a : Dyadic} {count : ℕ} (hx : Dyadic.ofFloat? x = some a)
    (hcount : 0 < count) (hlow : 1000 * (1 - 1 / (2 * 10 ^ count)) ≤ a.magnitude.toRat)
    (hhigh : a.magnitude.toRat ≤ 1001) :
    ∃ b, Dyadic.ofFloat? (x / 1000) = some b ∧ 9 / 10 ≤ b.magnitude.toRat ∧
      b.magnitude.toRat ≤ 2 ∧ (b.magnitude.rounded count < 1 ↔
        count ∈ lostCounts ∧ a.magnitude.toRat = leastCarried count) := by
  rcases le_or_gt a.magnitude.toRat 1000 with hle | hgt
  · obtain ⟨b, hb, hblow, hbhigh, hlost⟩ := div_thousand_spec_of_le hx hcount hlow hle
    exact ⟨b, hb, hblow, hbhigh.trans one_le_two, hlost⟩
  · obtain ⟨b, r, hb, hr, hvalue⟩ := exists_ofFloat?_div_thousand hx hhigh
    have hone : 1 ≤ b.magnitude.toRat := by
      have := Ratio.le_nearest (@isRepresentable_natCast 1 (by norm_num))
        (by rw [hr, Nat.cast_one]; linarith)
      rw [hvalue]
      exact_mod_cast this
    have htwo : b.magnitude.toRat ≤ 2 := by
      have := Ratio.nearest_le (@isRepresentable_natCast 2 (by norm_num))
        (by rw [hr, Nat.cast_ofNat]; linarith)
      rw [hvalue]
      exact_mod_cast this
    have hnum : b.magnitude.num ≠ 0 := Ratio.num_ne_zero (by linarith)
    refine ⟨b, hb, by linarith, htwo, iff_of_false ?_ fun h => ?_⟩
    · have := @Ratio.zpow_le_rounded _ _ 0 hnum hcount (by rwa [zpow_zero])
      rwa [zpow_zero, ← not_lt] at this
    · have hleast : leastCarried count ≤ 1000 := sub_le_self _ (by positivity)
      linarith [h.2]

end PocketCalculator
