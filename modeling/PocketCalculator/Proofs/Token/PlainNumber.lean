import PocketCalculator.Proofs.Expr.WrittenAns
import PocketCalculator.Proofs.Format.Trimmed
import PocketCalculator.Proofs.Number.Quotient

/-! # The plain text of a double is one exact number

A decimal in normal form does not end with a zero (`Decimal.normalize_mod_ten`), and the shortest
decimal of a double is in normal form.  So its positional text has no zero behind the point that
could be left out, and it needs no exponent either: the plain text of a finite double is a single
token, which stands for the same number as the recorded text and is read as the double
(`plainText_exact`). -/

namespace PocketCalculator

open Reading (digitsValue decimal?)

/-! ### Decimals in normal form -/

namespace Decimal

theorem dropZeros_mod_ten {fuel c : ℕ} (e : ℤ) (h0 : c ≠ 0) (hlt : c < 10 ^ fuel) :
    (dropZeros fuel c e).1 % 10 ≠ 0 := by
  fun_induction dropZeros fuel c e with
  | case1 c e =>
      rw [pow_zero] at hlt
      omega
  | case2 fuel c e hc ih =>
      rw [pow_succ'] at hlt
      exact ih (by omega) (by omega)
  | case3 fuel c e hc => exact hc

/-- No zero stands at the end of a coefficient in normal form. -/
theorem normalize_mod_ten {c : Decimal} (h : c.coefficient ≠ 0) :
    c.normalize.coefficient % 10 ≠ 0 := by
  rw [normalize, if_neg h]
  refine dropZeros_mod_ten _ h ?_
  exact (Ratio.decimalLength_le_iff (Ratio.decimalLength_pos _)).1 le_rfl

end Decimal

theorem Dyadic.shortest_mod_ten {d : Dyadic} (hc : d.Canonical) (hm : 0 < d.mantissa) :
    d.shortest.coefficient % 10 ≠ 0 := by
  obtain ⟨count, hgrid⟩ := Shortest.exists_onGrid?_eq hc hm
  obtain ⟨n, -, hn, -⟩ := Shortest.exists_of_onGrid? hgrid
  have hne := Decimal.coefficient_ne_zero_of_contains hc hm (contains_shortest hc hm)
  rw [shortest, if_neg hm.ne'] at hne ⊢
  dsimp only at hne ⊢
  rw [hn] at hne ⊢
  refine Decimal.normalize_mod_ten fun hzero => hne ?_
  rw [Decimal.normalize, if_pos hzero]

/-! ### Numerals of a decimal -/

namespace PlainNumeral

variable {n : PlainNumeral}

theorem size_nonneg (n : PlainNumeral) : 0 ≤ n.size :=
  div_nonneg (Nat.cast_nonneg _) (pow_nonneg (by norm_num) _)

theorem abs_value (n : PlainNumeral) : |n.value| = n.size := by
  rw [value, abs_signed, abs_of_nonneg n.size_nonneg]

/-- Behind the point there is no needless zero when the coefficient has none. -/
theorem getLast?_fraction_ne {c : Decimal} (hlength : n.fraction.length = (-c.exponent).toNat)
    (hvalue : n.value = c.value) (hc : c.coefficient % 10 ≠ 0) :
    n.fraction.getLast? ≠ some '0' := by
  intro hlast
  obtain ⟨f, hf⟩ := List.getLast?_eq_some_iff.1 hlast
  have hsize : n.size = c.magnitude.toRat := by
    rw [← n.abs_value, hvalue, Decimal.value, abs_signed, abs_of_nonneg c.magnitude.toRat_nonneg]
  have hexponent : c.exponent = -(n.fraction.length : ℤ) := by
    have hpos : 0 < n.fraction.length := by
      rw [hf, List.length_append, List.length_singleton]
      omega
    omega
  rw [size, Decimal.toRat_magnitude, hexponent, zpow_neg, zpow_natCast, ← div_eq_mul_inv,
    div_left_inj' (pow_pos (by norm_num) _).ne', Nat.cast_inj, hf, ← List.append_assoc,
    digitsValue_concat_zero] at hsize
  omega

/-! ### The text of a plain numeral -/

theorem text_eq (n : PlainNumeral) : n.text = Decimal.signText n.negative ++
    (n.whole ++ if n.fraction = [] then [] else '.' :: n.fraction) :=
  List.append_assoc _ _ _

/-- A plain numeral is a numeral of the scanner. -/
def toNumeral (n : PlainNumeral) : Numeral where
  negative := n.negative
  body := n.whole ++ if n.fraction = [] then [] else '.' :: n.fraction
  body_ne_nil := List.append_ne_nil_of_left_ne_nil n.whole_ne_nil _
  body_all := by
    refine List.all_eq_true.2 fun c hc => isNumeralChar_of_plain ?_
    rcases List.mem_append.1 hc with hc | hc
    · exact isPlainNumeralChar_of_digit (n.isDigit_whole c hc)
    · split at hc
      · cases hc
      · rcases List.mem_cons.1 hc with rfl | hc
        · decide
        · exact isPlainNumeralChar_of_digit (n.isDigit_fraction c hc)

theorem text_toNumeral (n : PlainNumeral) : n.toNumeral.text = n.text := by
  rw [text_eq, Numeral.text, toNumeral]
  cases n.negative <;> rfl

theorem count_point_text (n : PlainNumeral) : n.text.count '.' ≤ 1 := by
  have hwhole := List.count_eq_zero.2 (point_not_mem_of_digits n.isDigit_whole)
  have hfraction := List.count_eq_zero.2 (point_not_mem_of_digits n.isDigit_fraction)
  rw [← text_toNumeral, Numeral.count_point_text, toNumeral]
  dsimp only
  rw [List.count_append, hwhole]
  split
  · simp
  · rw [List.count_cons_self, hfraction]

theorem getLast?_text (h : '.' ∈ n.text) : n.text.getLast? = n.fraction.getLast? := by
  have hf := n.point_mem_text.1 h
  obtain ⟨c, f, hcons⟩ := List.exists_cons_of_ne_nil hf
  rw [text, if_neg hf, hcons]
  simp [List.getLast?_cons]

theorem getLast?_text_ne_point (n : PlainNumeral) : n.text.getLast? ≠ some '.' := by
  intro h
  have hpoint := List.mem_of_getLast? h
  rw [getLast?_text hpoint] at h
  exact absurd (n.isDigit_fraction '.' (List.mem_of_getLast? h)) (by decide)

end PlainNumeral

/-! ### Zero -/

/-- The numeral `0`. -/
def PlainNumeral.zero : PlainNumeral :=
  ⟨false, ['0'], [], List.cons_ne_nil _ _, fun _ h => List.mem_singleton.1 h ▸ rfl, isDigit_nil⟩

theorem PlainNumeral.value_zero : zero.value = 0 := by
  have hsize : digitsValue ['0'] = 0 := rfl
  simp [value, size, zero, hsize]

theorem beq_zero_iff_mantissa {x : Float} {d : Dyadic} (hd : Dyadic.ofFloat? x = some d) :
    (x == 0) = true ↔ d.mantissa = 0 := by
  rw [beq_zero_iff]
  rcases Nat.eq_zero_or_pos d.mantissa with hm | hm
  · exact iff_of_true ⟨_, Dyadic.toModel_unpack_zero hd hm⟩ hm
  · rw [Dyadic.toModel_unpack hd hm]
    exact iff_of_false (fun ⟨s, h⟩ => by cases h) hm.ne'

/-! ### Plain texts -/

/-- The plain text of a finite double is a plain numeral of its shortest decimal, without needless
zeros. -/
theorem exists_plainNumeral_plainText {x : Float} {d : Dyadic} (hd : Dyadic.ofFloat? x = some d) :
    ∃ n : PlainNumeral, n.text = plainText x ∧ n.fraction.getLast? ≠ some '0' ∧
      n.value = d.shortest.value := by
  rw [plainText, hd]
  dsimp only
  split
  · rename_i hm
    refine ⟨.zero, rfl, by simp [PlainNumeral.zero], ?_⟩
    rw [PlainNumeral.value_zero, Dyadic.shortest, if_pos hm, Decimal.value_eq]
    simp
  · rename_i hm
    have hmod := Dyadic.shortest_mod_ten (Dyadic.canonical_of_ofFloat? hd) (Nat.pos_of_ne_zero hm)
    obtain ⟨n, htext, -, hlength, hvalue⟩ := d.shortest.exists_plainNumeral
    exact ⟨n, htext, PlainNumeral.getLast?_fraction_ne hlength hvalue hmod, hvalue⟩

theorem plainText_eq_zero_iff {x : Float} {d : Dyadic} (hd : Dyadic.ofFloat? x = some d) :
    plainText x = ['0'] ↔ (x == 0) = true := by
  rw [beq_zero_iff_mantissa hd]
  constructor
  · intro hzero
    obtain ⟨n, htext, -, hvalue⟩ := exists_plainNumeral_plainText hd
    by_contra hm
    have hpos : 0 < d.mantissa := Nat.pos_of_ne_zero hm
    have hc := Dyadic.canonical_of_ofFloat? hd
    have hlow := (Decimal.magnitude_bounds hc hpos (Dyadic.contains_shortest hc hpos)).1
    have hsize : d.shortest.magnitude.toRat = 0 := by
      rw [← abs_of_nonneg d.shortest.magnitude.toRat_nonneg,
        ← abs_signed d.shortest.negative, ← Decimal.value, ← hvalue,
        @PlainNumeral.value_eq_of_text_eq n .zero (htext.trans hzero), PlainNumeral.value_zero,
        abs_zero]
    rw [hsize] at hlow
    exact absurd hlow (not_lt.2 (zpow_pos (by norm_num) _).le)
  · intro hm
    rw [plainText, hd]
    exact if_pos hm

theorem scan_numeral (n : Numeral) : Token.scan n.text = .ok [.number n] := by
  have h : Token.ofChars none (n.text ++ []) = (Token.ofChars _ []).map (.number n :: ·) :=
    Token.ofChars_numeral n (fun _ => rfl) (fun c hc => by cases hc)
  rw [List.append_nil, Token.ofChars_nil] at h
  rw [Token.scan, h]
  rfl

/-- The plain text of a finite double is one number token.  It is a plain numeral, so it has no
exponent and digits on both sides of its point; it does not end with a zero behind the point; it
stands for exactly the number that the recorded text stands for, and it is `0` for both zeros.  So
it is read as the double, of which only the sign of a negative zero is lost. -/
theorem plainText_exact {x : Float} (hx : x.isFinite = true) :
    (∃ n : Numeral, n.text = plainText x ∧ Token.scan (plainText x) = .ok [.number n]) ∧
      isNumeral (plainText x) = true ∧
      (∃ (n : PlainNumeral) (c : Decimal), n.text = plainText x ∧
        decimal? (recordText x) = some c ∧ n.value = c.value) ∧
      'e' ∉ plainText x ∧ (plainText x).count '.' ≤ 1 ∧ (plainText x).getLast? ≠ some '.' ∧
      ('.' ∈ plainText x → (plainText x).getLast? ≠ some '0') ∧
      (plainText x = ['0'] ↔ (x == 0) = true) ∧
      (x ≠ -0.0 → readNumber (plainText x) = .ok x) := by
  obtain ⟨d, hd⟩ := Dyadic.exists_of_isFinite hx
  obtain ⟨n, htext, hzeros, hvalue⟩ := exists_plainNumeral_plainText hd
  obtain ⟨c, hc, -, hcvalue⟩ := exists_decimal?_recordText hd
  refine ⟨⟨n.toNumeral, ?_, ?_⟩, ?_, ⟨n, c, htext, hc, hvalue.trans hcvalue.symm⟩, ?_, ?_, ?_, ?_,
    plainText_eq_zero_iff hd, fun h0 => ?_⟩
  · rw [n.text_toNumeral, htext]
  · rw [← htext, ← n.text_toNumeral, scan_numeral]
  · rw [← htext, ← n.text_toNumeral, isNumeral, Numeral.ofText?_text]
    rfl
  · rw [← htext]
    exact n.exponent_not_mem_text
  · rw [← htext]
    exact n.count_point_text
  · rw [← htext]
    exact n.getLast?_text_ne_point
  · rw [← htext]
    intro hpoint
    rwa [PlainNumeral.getLast?_text hpoint]
  · obtain ⟨m, hm, -, -, hread⟩ := exists_numeral_plainText hx h0
    rw [← hm]
    exact hread

/-- The least double has all its places written out. -/
theorem plainText_exact_least : (5e-324 : Float).isFinite = true ∧
    (∃ n : Numeral, n.text = plainText 5e-324 ∧
      Token.scan (plainText 5e-324) = .ok [.number n]) ∧
    'e' ∉ plainText 5e-324 ∧ (plainText 5e-324).length = 326 ∧
    readNumber (plainText 5e-324) = .ok 5e-324 := by
  have hx : (5e-324 : Float).isFinite = true := by decide +kernel
  have hlength : (plainText 5e-324).length = 326 := by decide +kernel
  have h0 : (5e-324 : Float) ≠ -0.0 := fun h =>
    absurd (congrArg Float.toBits h) (by decide +kernel)
  obtain ⟨htoken, -, -, hexponent, -, -, -, -, hread⟩ := plainText_exact hx
  exact ⟨hx, htoken, hexponent, hlength, hread h0⟩

end PocketCalculator
