import PocketCalculator.Proofs.Number.PlainText

/-! # Positional numerals

A plain numeral is a sign, digits and possibly a point with more digits; it has no exponent.  The
positional text of a decimal is one, with as many digits behind the point as the exponent asks for
and with the value of the decimal: `Decimal.exists_plainNumeral`. -/

namespace PocketCalculator

open Reading (digitsValue)

/-! ### Signs -/

/-- A size with a sign. -/
def signed (negative : Bool) (size : ℚ) : ℚ :=
  if negative then -size else size

section signs

variable (negative : Bool) (a b : ℚ)

@[simp]
theorem signed_zero : signed negative 0 = 0 := by
  cases negative <;> simp [signed]

@[simp]
theorem abs_signed : |signed negative a| = |a| := by
  cases negative <;> simp [signed]

theorem signed_sub : signed negative (a - b) = signed negative a - signed negative b := by
  cases negative with
  | false => rfl
  | true =>
      simp only [signed, if_true]
      ring

theorem signed_mul : signed negative (a * b) = signed negative a * b := by
  cases negative with
  | false => rfl
  | true => exact neg_mul_eq_neg_mul a b

theorem signed_div : signed negative (a / b) = signed negative a / b := by
  rw [div_eq_mul_inv, signed_mul, ← div_eq_mul_inv]

variable {a} in
theorem signed_neg_iff (ha : 0 ≤ a) : signed negative a < 0 ↔ negative = true ∧ a ≠ 0 := by
  cases negative with
  | false => simpa [signed] using ha
  | true => simpa [signed] using lt_iff_le_and_ne.trans ⟨fun h => h.2.symm, fun h => ⟨ha, h.symm⟩⟩

/-- A whole number with a sign. -/
def signedWhole (n : Nat) : ℤ :=
  if negative then -(n : ℤ) else n

@[simp]
theorem natAbs_signedWhole (n : Nat) : (signedWhole negative n).natAbs = n := by
  cases negative <;> simp [signedWhole]

@[simp]
theorem cast_signedWhole (n : Nat) : (signedWhole negative n : ℚ) = signed negative n := by
  cases negative <;> simp [signedWhole, signed]

theorem signedWhole_natAbs (p : ℤ) : signedWhole (decide (p < 0)) p.natAbs = p := by
  rw [signedWhole]
  split <;> rename_i h <;> rw [decide_eq_true_eq] at h <;> omega

theorem cast_eq_signed (p : ℤ) : (p : ℚ) = signed (decide (p < 0)) p.natAbs := by
  rw [← cast_signedWhole, signedWhole_natAbs]

end signs

/-! ### Values -/

/-- The number that a decimal stands for. -/
def Decimal.value (c : Decimal) : ℚ :=
  signed c.negative c.magnitude.toRat

/-- The number that a double stands for. -/
def Dyadic.value (d : Dyadic) : ℚ :=
  signed d.negative d.magnitude.toRat

namespace Dyadic

variable {d : Dyadic}

theorem magnitude_pos_iff : 0 < d.magnitude.toRat ↔ 0 < d.mantissa := by
  rw [toRat_magnitude, mul_pos_iff_of_pos_right (zpow_pos two_pos _), Nat.cast_pos]

theorem abs_value (d : Dyadic) : |d.value| = d.magnitude.toRat := by
  rw [value, abs_signed, abs_of_nonneg d.magnitude.toRat_nonneg]

theorem value_ne_zero_iff : d.value ≠ 0 ↔ 0 < d.mantissa := by
  rw [← abs_pos, abs_value, magnitude_pos_iff]

end Dyadic

/-! ### Plain numerals -/

/-- A sign, at least one digit, and the digits behind the point, if there is one. -/
structure PlainNumeral where
  negative : Bool
  whole : Text
  fraction : Text
  whole_ne_nil : whole ≠ []
  isDigit_whole : ∀ c ∈ whole, isAsciiDigit c = true
  isDigit_fraction : ∀ c ∈ fraction, isAsciiDigit c = true

namespace PlainNumeral

theorem isDigit_nil : ∀ c ∈ ([] : Text), isAsciiDigit c = true :=
  fun _ h => absurd h List.not_mem_nil

/-- The text of a plain numeral: there is a point if there are digits behind it. -/
def text (n : PlainNumeral) : Text :=
  Decimal.signText n.negative ++ n.whole ++ if n.fraction = [] then [] else '.' :: n.fraction

/-- The absolute value: all the digits, with the point moved in front of the last ones. -/
def size (n : PlainNumeral) : ℚ :=
  digitsValue (n.whole ++ n.fraction) / 10 ^ n.fraction.length

/-- The number that a plain numeral stands for. -/
def value (n : PlainNumeral) : ℚ :=
  signed n.negative n.size

theorem head?_text (n : PlainNumeral) : n.text.head? = some '-' ↔ n.negative = true := by
  rw [text]
  cases n.negative with
  | true => exact iff_of_true rfl rfl
  | false =>
      obtain ⟨c, w, hw⟩ := List.exists_cons_of_ne_nil n.whole_ne_nil
      have hc : c ≠ '-' := by
        rintro rfl
        have := n.isDigit_whole '-' (hw ▸ List.mem_cons_self)
        exact absurd this (by decide)
      rw [hw]
      simpa [Decimal.signText] using hc

end PlainNumeral

/-! ### Positional texts -/

namespace Decimal

theorem value_eq (c : Decimal) : c.value = signed c.negative (c.coefficient * 10 ^ c.exponent) := by
  rw [value, toRat_magnitude]

/-- A positional text is a plain numeral with the digits behind the point that the exponent asks
for, and with the value of the decimal. -/
theorem exists_plainNumeral (c : Decimal) : ∃ n : PlainNumeral, n.text = c.positional ∧
    n.negative = c.negative ∧ n.fraction.length = (-c.exponent).toNat ∧ n.value = c.value := by
  rw [value_eq]
  obtain ⟨negative, n, e⟩ := c
  cases e with
  | ofNat e =>
      by_cases hn : n = 0
      · refine ⟨⟨negative, ['0'], [], by simp, by simp [isAsciiDigit], by simp⟩, ?_, rfl, ?_, ?_⟩
        · simp [PlainNumeral.text, positional, hn]
        · simp
        · have h0 : digitsValue ['0'] = 0 := rfl
          simp [PlainNumeral.value, PlainNumeral.size, h0, hn]
      · refine ⟨⟨negative, digits n ++ List.replicate e '0', [], by simp [digits_ne_nil],
          fun x hx => isAsciiDigit_of_mem_digits_zeros hx, by simp⟩, ?_, rfl, ?_, ?_⟩
        · simp [PlainNumeral.text, positional, hn]
        · simp
        · simp [PlainNumeral.value, PlainNumeral.size, digitsValue_digits_append_zeros]
  | negSucc e =>
      refine ⟨⟨negative, wholeDigits n (e + 1), fractionDigits n (e + 1), wholeDigits_ne_nil n _,
        fun _ => isAsciiDigit_of_mem_wholeDigits, fun _ => isAsciiDigit_of_mem_fractionDigits⟩,
        ?_, rfl, ?_, ?_⟩
      · rw [PlainNumeral.text, if_neg (fractionDigits_succ_ne_nil n e), List.append_assoc,
          positional_negSucc]
      · rw [length_fractionDigits, Int.neg_negSucc]
        rfl
      · rw [PlainNumeral.value, PlainNumeral.size, digitsValue_wholeDigits_append,
          length_fractionDigits, zpow_negSucc, div_eq_mul_inv]

end Decimal
end PocketCalculator
