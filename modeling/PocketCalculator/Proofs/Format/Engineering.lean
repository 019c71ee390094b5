import PocketCalculator.Proofs.Evaluation.Reading
import PocketCalculator.Proofs.Format.Carry
import PocketCalculator.Proofs.Format.Trimmed

/-! # Normalised engineering notation

A number in the engineering format is shown as a plain numeral from one up to a thousand, times a
power of a thousand (`formatEngineering_normalised`).  The exceptions are listed by `Misshown`: with
one or two digits, a mantissa with more digits in front of the point is shown with an exponent of
its own; for six numbers of digits, the least mantissa that is carried comes out below one; and so
does, with 13 digits or more, a mantissa whose exponent is one too high.  For most numbers of digits
up to ten, eight among them, there is none (`not_misshown`). -/

namespace PocketCalculator

/-! ### Engineering notation -/

/-- The power of ten behind a mantissa, which is not shown when it is one. -/
def powerText (k : ℤ) : Text :=
  if k = 0 then [] else Marker.tenPower.text ++ wholeText k

/-- A plain numeral from one up to a thousand. -/
def PlainNumeral.IsNormalised (m : PlainNumeral) : Prop :=
  1 ≤ |m.value| ∧ |m.value| < 1000

/-- A normalised plain numeral, and a power of ten whose exponent is a multiple of three. -/
def IsEngineering (t : Text) : Prop :=
  ∃ (m : PlainNumeral) (k : ℤ), t = m.text ++ powerText k ∧ 3 ∣ k ∧ m.IsNormalised

theorem head?_powerText (k : ℤ) : ∀ c ∈ (powerText k).head?, (c != '×') = false := by
  rw [powerText]
  split <;> simp [Marker.text]

theorem isEngineering_append {t : Text} {k : ℤ} (ht : '×' ∉ t) (hk : 3 ∣ k) :
    IsEngineering (t ++ powerText k) ↔ ∃ m : PlainNumeral, m.text = t ∧ m.IsNormalised := by
  have hfront {t : Text} (ht : '×' ∉ t) (k : ℤ) : (t ++ powerText k).takeWhile (· != '×') = t :=
    (Text.takeWhile_append (fun c hc => by simpa using ne_of_mem_of_not_mem hc ht)
      (head?_powerText k)).1
  constructor
  · rintro ⟨m, k', heq, -, hm⟩
    refine ⟨m, ?_, hm⟩
    have hcross : '×' ∉ m.text := fun h => absurd (PlainNumeral.mem_text h) (by decide)
    rw [← hfront hcross k', ← heq, hfront ht]
  · rintro ⟨m, rfl, hm⟩
    exact ⟨m, k, rfl, hk, hm⟩

/-! ### The text of a mantissa -/

theorem cross_not_mem_trimZeros {t : Text}
    (h : ∀ x ∈ t, isAsciiDigit x = true ∨ x ∈ ['-', '+', '.', 'e']) : '×' ∉ trimZeros t := by
  intro hmem
  rcases mem_trimZeros hmem with hmem | hmem
  · exact absurd (h _ hmem) (by decide)
  · exact absurd hmem (by decide)

theorem exists_isNormalised_positional (c : Decimal) :
    (∃ m : PlainNumeral, m.text = trimZeros c.positional ∧ m.IsNormalised) ↔
      1 ≤ c.magnitude.toRat ∧ c.magnitude.toRat < 1000 := by
  obtain ⟨n, hn, -, -, hvalue⟩ := c.exists_plainNumeral
  obtain ⟨m, hm, hmvalue⟩ := n.exists_trimZeros
  have hsize : |m.value| = c.magnitude.toRat := by
    rw [hmvalue, hvalue, Decimal.value, abs_signed, abs_of_nonneg c.magnitude.toRat_nonneg]
  rw [← hn, ← hm, ← hsize]
  constructor
  · rintro ⟨m', htext, hnormal⟩
    rwa [PlainNumeral.IsNormalised, PlainNumeral.value_eq_of_text_eq htext] at hnormal
  · exact fun hnormal => ⟨m, rfl, hnormal⟩

section shown

variable {x : Float} {a : Dyadic} (hx : Dyadic.ofFloat? x = some a)

include hx

theorem cross_not_mem_significantText (count : Nat) :
    '×' ∉ trimZeros (significantText x count) := by
  rw [significantText, hx]
  dsimp only
  rw [Dyadic.significantText]
  split
  · obtain ⟨n, hn, -⟩ := Decimal.exists_plainNumeral (a.significant (effectiveCount count))
    refine cross_not_mem_trimZeros fun c hc => (PlainNumeral.mem_text (hn ▸ hc)).imp_right ?_
    rintro (rfl | rfl) <;> decide
  · exact cross_not_mem_trimZeros fun c hc => mem_scientific hc

/-- The text of a double is normalised when its rounded number is, and has no more digits in front
of the point than are asked for. -/
theorem exists_isNormalised_significantText (hlow : 1 / 10 ≤ a.magnitude.toRat) (count : Nat) :
    (∃ m : PlainNumeral, m.text = trimZeros (significantText x count) ∧ m.IsNormalised) ↔
      1 ≤ a.magnitude.rounded (effectiveCount count) ∧
        a.magnitude.rounded (effectiveCount count) < 1000 ∧
        a.magnitude.rounded (effectiveCount count) < 10 ^ effectiveCount count := by
  have hm := Dyadic.magnitude_pos_iff.1 (lt_of_lt_of_le (by norm_num) hlow)
  have hR := @Ratio.zpow_le_rounded _ _ (-1) (a.magnitude_num_pos hm).ne' (effectiveCount_pos count)
    (by norm_num; linarith)
  rw [significantText, hx]
  dsimp only
  rw [Dyadic.significantText]
  rw [← Dyadic.toRat_significant hm] at hR ⊢
  generalize a.significant (effectiveCount count) = c at hR ⊢
  have hcoefficient := Decimal.coefficient_ne_zero ((zpow_pos (by norm_num) _).trans_le hR)
  have hlead : -4 ≤ c.leadingExponent := by
    by_contra hlt
    have hsmall := (Decimal.leadingExponent_lt_iff hcoefficient).1 (not_le.1 hlt)
    have hle : (10 : ℚ) ^ (-4 : ℤ) ≤ 10 ^ (-1 : ℤ) :=
      zpow_le_zpow_right₀ (by norm_num) (by norm_num)
    exact absurd (hsmall.trans_le hle) (not_lt.2 hR)
  have hlt := @Decimal.leadingExponent_lt_iff c hcoefficient (effectiveCount count)
  rw [zpow_natCast] at hlt
  rw [← hlt]
  by_cases hshort : c.leadingExponent < effectiveCount count
  · rw [if_pos ⟨hlead, hshort⟩, exists_isNormalised_positional, and_iff_left hshort]
  · rw [if_neg (by simp [hshort])]
    exact iff_of_false (fun ⟨m, hm, _⟩ => trimZeros_scientific_ne c m hm) fun h => hshort h.2.2

end shown

/-! ### The exceptions -/

/-- The mantissas that are not shown as plain numerals from one up to a thousand with `n` digits. -/
def Misshown (n : ℕ) (a : ℚ) : Prop :=
  n = 1 ∧ 19 / 2 ≤ a ∧ a < 950 ∨ n = 2 ∧ 199 / 2 ≤ a ∧ a < 995 ∨
    n ∈ lostCounts ∧ a = leastCarried n ∨ 13 ≤ n ∧ a < 1 - 1 / (2 * 10 ^ n)

theorem le_leastCarried (n : ℕ) : 1000 * (1 - 1 / (2 * 10 ^ n)) ≤ leastCarried n := by
  have hdiv : ((500 * 2 ^ 43 / 10 ^ n : ℕ) : ℚ) ≤ 500 * 2 ^ 43 / 10 ^ n := by
    exact_mod_cast @Nat.cast_div_le ℚ _ _ _ (500 * 2 ^ 43) (10 ^ n)
  have hstep : ((500 * 2 ^ 43 / 10 ^ n : ℕ) : ℚ) / 2 ^ 43 ≤ 1000 * (1 / (2 * 10 ^ n)) := by
    rw [div_le_iff₀ (by norm_num)]
    refine hdiv.trans_eq ?_
    field_simp
    norm_num
  rw [leastCarried]
  linarith

section exceptions

variable {n : ℕ} {a : ℚ} (hn : 0 < n)

include hn

theorem cut_bounds : 0 < (1 : ℚ) / (2 * 10 ^ n) ∧ (1 : ℚ) / (2 * 10 ^ n) ≤ 1 / 20 := by
  have hten : (10 : ℚ) ≤ 10 ^ n := le_self_pow₀ (by norm_num) (by omega)
  exact ⟨by positivity, one_div_le_one_div_of_le (by norm_num) (by linarith)⟩

theorem misshown_iff_of_lt (hlow : 1 - 9 / (2 * 10 ^ 13) ≤ a)
    (hlt : a < 1000 * (1 - 1 / (2 * 10 ^ n))) :
    Misshown n a ↔ a < 1 - 1 / (2 * 10 ^ n) ∨ 10 ^ n * (1 - 1 / (2 * 10 ^ n)) ≤ a := by
  constructor
  · rintro (⟨rfl, h, -⟩ | ⟨rfl, h, -⟩ | ⟨-, rfl⟩ | ⟨-, h⟩)
    · exact .inr (by norm_num; linarith)
    · exact .inr (by norm_num; linarith)
    · exact absurd hlt (not_lt.2 (le_leastCarried n))
    · exact .inl h
  · rintro (h | h)
    · refine .inr (.inr (.inr ⟨?_, h⟩))
      -- with 12 digits or fewer the error of the exponent is rounded away
      by_contra hfew
      have hpow : (10 : ℚ) ^ n ≤ 10 ^ 12 := pow_le_pow_right₀ (by norm_num) (by omega)
      have hcut : (1 : ℚ) / (2 * 10 ^ 12) ≤ 1 / (2 * 10 ^ n) :=
        one_div_le_one_div_of_le (by positivity) (by linarith)
      norm_num1 at hlow hcut
      linarith
    · -- three digits in front of the point need three digits
      have hcut := cut_bounds hn
      have hpow : (10 : ℚ) ^ n < 10 ^ 3 := by
        have := lt_of_mul_lt_mul_right (h.trans_lt hlt) (by linarith)
        norm_num
        exact this
      have hn3 : n < 3 := (pow_lt_pow_iff_right₀ (by norm_num : (1 : ℚ) < 10)).1 hpow
      obtain rfl | rfl : n = 1 ∨ n = 2 := by omega
      · exact .inl ⟨rfl, by norm_num at h; linarith, by norm_num at hlt; linarith⟩
      · exact .inr (.inl ⟨rfl, by norm_num at h; linarith, by norm_num at hlt; linarith⟩)

theorem misshown_iff_of_le (hle : 1000 * (1 - 1 / (2 * 10 ^ n)) ≤ a) :
    Misshown n a ↔ n ∈ lostCounts ∧ a = leastCarried n := by
  constructor
  · rintro (⟨rfl, -, h⟩ | ⟨rfl, -, h⟩ | h | ⟨-, h⟩)
    · norm_num at hle
      linarith
    · norm_num at hle
      linarith
    · exact h
    · have := cut_bounds hn
      linarith
  · exact fun h => .inr (.inr (.inl h))

end exceptions

/-- With 17 digits or more, only one itself rounds to one from below. -/
theorem lt_one_sub_iff {a : ℚ} (ha : IsRepresentable a) {n : ℕ} (hn : 17 ≤ n) :
    a < 1 - 1 / (2 * 10 ^ n) ↔ a < 1 := by
  constructor
  · intro h
    have := (cut_bounds (by omega : 0 < n)).1
    linarith
  · intro h
    have hpow : (10 : ℚ) ^ 17 ≤ 10 ^ n := pow_le_pow_right₀ (by norm_num) hn
    have hcut : (1 : ℚ) / (2 * 10 ^ n) ≤ 1 / (2 * 10 ^ 17) :=
      one_div_le_one_div_of_le (by norm_num) (by linarith)
    norm_num1 at hcut
    have hgap := @IsRepresentable.le_of_lt_mul _ ha (-53) (2 ^ 53) (by norm_num)
      (by norm_num; exact h)
    norm_num at hgap
    linarith

/-- More digits than a double has make no difference. -/
theorem misshown_effectiveCount {n : ℕ} (hn : 0 < n) {a : ℚ} (ha : IsRepresentable a) :
    Misshown (effectiveCount n) a ↔ Misshown n a := by
  have hmany {k : ℕ} (hk : 17 ≤ k) : Misshown k a ↔ a < 1 := by
    rw [Misshown, ← lt_one_sub_iff ha hk, lostCounts]
    simp only [List.mem_cons, List.not_mem_nil, or_false]
    constructor
    · rintro (h | h | h | h)
      · omega
      · omega
      · omega
      · exact h.2
    · exact fun h => .inr (.inr (.inr ⟨by omega, h⟩))
  have hcount : effectiveCount n = min n 800 := max_eq_right (by
    change 1 ≤ min n 800
    omega)
  rcases le_or_gt n 800 with hle | hgt
  · rw [hcount, min_eq_left hle]
  · rw [hmany (by omega), hmany (by omega)]

/-- The mantissa that is shown: a carried one is divided by a thousand. -/
def shownMantissa (x : Float) (n : ℕ) : Float :=
  if roundsToThousand x n then x / 1000 else x

/-- The mantissa that is shown is normalised unless it is an exception. -/
theorem shownMantissa_isNormalised {x : Float} {a : Dyadic} {n : ℕ}
    (hx : Dyadic.ofFloat? x = some a) (hn : 0 < n)
    (hlow : 1 - 9 / (2 * 10 ^ 13) ≤ a.magnitude.toRat) (hhigh : a.magnitude.toRat ≤ 1001) :
    ∃ b, Dyadic.ofFloat? (shownMantissa x n) = some b ∧
      ((∃ m : PlainNumeral, m.text = trimZeros (significantText (shownMantissa x n) n) ∧
        m.IsNormalised) ↔ ¬Misshown n a.magnitude.toRat) := by
  have hc := Dyadic.canonical_of_ofFloat? hx
  have htenth : 1 / 10 ≤ a.magnitude.toRat := le_trans (by norm_num) hlow
  have hm := Dyadic.magnitude_pos_iff.1 (lt_of_lt_of_le (by norm_num) htenth)
  have hnum := (a.magnitude_num_pos hm).ne'
  have hcount := effectiveCount_pos n
  have hcarry := @roundsToThousand_iff a n x hx hm htenth (hhigh.trans (by norm_num))
  have hbelow (b : ℤ) := @Ratio.rounded_lt_iff _ _ b hnum hcount
  rw [← misshown_effectiveCount hn hc.isRepresentable, shownMantissa]
  by_cases hrounds : roundsToThousand x n = true
  · rw [if_pos hrounds]
    have hle := hcarry.1 hrounds
    have hthousand : (1000 : ℚ) = 10 ^ (3 : ℤ) := by norm_num
    rw [hthousand, ← not_lt, hbelow, not_lt, ← hthousand] at hle
    obtain ⟨b, hb, hblow, hbhigh, hlost⟩ := div_thousand_spec hx hcount hle hhigh
    refine ⟨b, hb, ?_⟩
    rw [exists_isNormalised_significantText hb (by linarith), misshown_iff_of_le hcount hle,
      ← hlost, not_lt]
    have hbnum : b.magnitude.num ≠ 0 := Ratio.num_ne_zero (by linarith)
    have hcut := (cut_bounds hcount).2
    have hten := (@Ratio.rounded_lt_iff _ _ 1 hbnum hcount).2 (by rw [zpow_one]; linarith)
    rw [zpow_one] at hten
    have hpow : (10 : ℚ) ≤ 10 ^ effectiveCount n := le_self_pow₀ (by norm_num) hcount.ne'
    exact and_iff_left ⟨by linarith, by linarith⟩
  · rw [if_neg hrounds]
    refine ⟨a, hx, ?_⟩
    rw [exists_isNormalised_significantText hx htenth]
    have hlt := not_le.1 (mt hcarry.2 hrounds)
    have hcut := (hbelow 3).1 (by norm_num; exact hlt)
    rw [misshown_iff_of_lt hcount hlow (by norm_num at hcut ⊢; exact hcut), not_or, not_lt, not_le,
      and_iff_right hlt]
    have hone := not_congr (hbelow 0)
    have hpow := hbelow (effectiveCount n)
    rw [zpow_zero, one_mul, not_lt, not_lt] at hone
    rw [zpow_natCast] at hpow
    rw [hone, hpow]

/-- With three to ten digits, five and seven excepted, there is no exception. -/
theorem not_misshown {n : ℕ} (hlow : 3 ≤ n) (hhigh : n ≤ 10) (h5 : n ≠ 5) (h7 : n ≠ 7) (a : ℚ) :
    ¬Misshown n a := by
  rw [Misshown, lostCounts]
  simp only [List.mem_cons, List.not_mem_nil, or_false]
  rintro (h | h | h | h) <;> omega

/-! ### The format -/

section format

variable {log10 : Float → Float} {x : Float} {d : Dyadic} (hx : Dyadic.ofFloat? x = some d)

include hx

/-- The text is that of the shown mantissa and a power of ten. -/
theorem formatEngineeringBy_eq (hm : 0 < d.mantissa) {n : ℤ} (hn : 0 ≤ n) :
    formatEngineeringBy log10 n x =
      if greatestDigits < n then .error .digitsOutOfRange
      else .ok (trimZeros (significantText
          (shownMantissa (movePoint d (engineeringExponent log10 x)) n.toNat) n.toNat) ++
        powerText (if roundsToThousand (movePoint d (engineeringExponent log10 x)) n.toNat then
          engineeringExponent log10 x + 3 else engineeringExponent log10 x)) := by
  have htext (t : Text) (k : ℤ) :
      (if k = 0 then t else t ++ Marker.tenPower.text ++ wholeText k) = t ++ powerText k := by
    rw [powerText]
    split <;> simp
  rw [formatEngineeringBy, hx]
  dsimp only
  rw [if_neg hm.ne', withDigits, htext]
  simp only [not_lt.2 hn, false_or]
  rfl

/-- With one digit or more and any common logarithm, a finite number other than zero is shown in
engineering notation, unless its mantissa is one of the exceptions.  Only a number of digits out of
all bounds is refused. -/
theorem formatEngineering_normalised (hlog : IsCommonLogarithm log10) (h0 : d.value ≠ 0) {n : ℤ}
    (hn : 1 ≤ n) :
    (greatestDigits < n → formatEngineeringBy log10 n x = .error .digitsOutOfRange) ∧
      (n ≤ greatestDigits → ∃ t a, formatEngineeringBy log10 n x = .ok t ∧
        Dyadic.ofFloat? (movePoint d (engineeringExponent log10 x)) = some a ∧
        1 - 9 / (2 * 10 ^ 13) ≤ |a.value| ∧ |a.value| ≤ 1000 + 9 / (2 * 10 ^ 10) ∧
        (IsEngineering t ↔ ¬Misshown n.toNat |a.value|)) := by
  have hm := Dyadic.value_ne_zero_iff.1 h0
  rw [formatEngineeringBy_eq hx hm (by omega)]
  refine ⟨fun hbig => if_pos hbig, fun hle => ?_⟩
  rw [if_neg (not_lt.2 hle)]
  obtain ⟨a, ha, -, hlow, hhigh⟩ := movePoint_spec hlog hx hm
  obtain ⟨q, hexponent, -, -⟩ := engineeringExponent_spec hlog hx hm
  obtain ⟨b, hb, hnormal⟩ := shownMantissa_isNormalised ha (by omega : 0 < n.toNat) hlow
    (hhigh.trans (by norm_num))
  rw [← a.abs_value] at hlow hhigh hnormal
  refine ⟨_, a, rfl, ha, hlow, hhigh, ?_⟩
  rw [isEngineering_append (cross_not_mem_significantText hb _), hnormal]
  split <;> omega

end format

/-- A mantissa that rounds to a thousand moves on to the next power. -/
theorem formatEngineering_normalised_carried :
    Dyadic.ofFloat? 999999999.6 = some ⟨false, 8388607996644557, -23⟩ ∧
      IsCommonLogarithm log10Double ∧
      (⟨false, 8388607996644557, -23⟩ : Dyadic).value ≠ 0 ∧ (1 : ℤ) ≤ 8 ∧ 8 ≤ greatestDigits ∧
      ∃ t, formatEngineering 8 999999999.6 = .ok t ∧ IsEngineering t := by
  have hx : Dyadic.ofFloat? 999999999.6 = some ⟨false, 8388607996644557, -23⟩ := by decide
  have h0 : (⟨false, 8388607996644557, -23⟩ : Dyadic).value ≠ 0 :=
    Dyadic.value_ne_zero_iff.2 (by decide)
  obtain ⟨t, a, ht, -, -, -, hiff⟩ :=
    (formatEngineering_normalised hx isCommonLogarithm_log10Double h0 (by decide : (1 : ℤ) ≤ 8)).2
      (by decide)
  have hshown := not_misshown (by decide : 3 ≤ 8) (by decide) (by decide) (by decide) |a.value|
  exact ⟨hx, isCommonLogarithm_log10Double, h0, by decide, by decide, t, ht, hiff.2 hshown⟩

/-- Two digits are not enough for a mantissa of 123.456. -/
theorem formatEngineering_not_normalised :
    Dyadic.ofFloat? 123456 = some ⟨false, 8483831719919616, -36⟩ ∧
      (⟨false, 8483831719919616, -36⟩ : Dyadic).value ≠ 0 ∧
      formatEngineering 2 123456 = .ok "1.2e+02×10^3".toList ∧
      ¬IsEngineering "1.2e+02×10^3".toList := by
  refine ⟨by decide, Dyadic.value_ne_zero_iff.2 (by decide),
    eq_ok_of_toOption (by decide +kernel), ?_⟩
  have hpower : "1.2e+02×10^3".toList = "1.2e+02".toList ++ powerText 3 := by decide
  rw [hpower, isEngineering_append (by decide) (by decide)]
  rintro ⟨m, hm, -⟩
  exact m.exponent_not_mem_text (hm ▸ by decide)

end PocketCalculator
