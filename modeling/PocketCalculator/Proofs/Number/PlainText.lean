import PocketCalculator.Proofs.Number.Reading
import PocketCalculator.Proofs.Number.Shortest

/-! # The plain text of a double reads back

A positional text is a sign and a body of plain digits with at most one point, and reading the body
gives the decimal that was written, up to its normal form (`Decimal.exists_body`).  Together with
the shortest decimal this makes the plain text of a finite double a numeral whose value is the
double: `exists_numeral_plainText`.  The one exception is the negative zero, whose sign is not
shown. -/

namespace PocketCalculator

open Reading (digitsValue unsigned?)

/-! ### Digits -/

theorem isAsciiDigit_of_isDigit {c : Char} (h : c.isDigit = true) : isAsciiDigit c = true := by
  rw [isAsciiDigit_iff]
  rw [Char.isDigit, Bool.and_eq_true, decide_eq_true_eq, decide_eq_true_eq] at h
  exact ⟨UInt32.le_iff_toNat_le.1 h.1, UInt32.le_iff_toNat_le.1 h.2⟩

theorem point_not_mem_of_digits {t : Text} (h : ∀ c ∈ t, isAsciiDigit c = true) : '.' ∉ t :=
  fun hm => absurd (h '.' hm) (by decide)

namespace Decimal

theorem isAsciiDigit_of_mem_digits {n : Nat} {c : Char} (h : c ∈ digits n) :
    isAsciiDigit c = true :=
  isAsciiDigit_of_isDigit (Nat.isDigit_of_mem_toDigits (by decide) (by decide) h)

theorem isAsciiDigit_of_mem_zeros {n : Nat} {c : Char} (h : c ∈ List.replicate n '0') :
    isAsciiDigit c = true := by
  rw [List.eq_of_mem_replicate h]
  decide

theorem isAsciiDigit_of_mem_digits_zeros {n e : Nat} {x : Char}
    (h : x ∈ digits n ++ List.replicate e '0') : isAsciiDigit x = true := by
  rcases List.mem_append.1 h with h | h
  · exact isAsciiDigit_of_mem_digits h
  · exact isAsciiDigit_of_mem_zeros h

theorem digits_ne_nil (n : Nat) : digits n ≠ [] :=
  Nat.toDigits_ne_nil

theorem digitsValue_digits_append_zeros (n e : Nat) :
    digitsValue (digits n ++ List.replicate e '0') = n * 10 ^ e := by
  rw [digitsValue, digits, Nat.ofDigitChars_append, Nat.ofDigitChars_ten_toDigits,
    Nat.ofDigitChars_replicate_zero, Nat.mul_comm]

theorem digitsValue_padLeft_digits (width n : Nat) :
    digitsValue (Text.padLeft width '0' (digits n)) = n := by
  rw [digitsValue, Text.padLeft, Nat.ofDigitChars_append, Nat.ofDigitChars_replicate_zero,
    Nat.mul_zero, digits, Nat.ofDigitChars_ten_toDigits]

theorem isAsciiDigit_of_mem_padLeft {width n : Nat} {c : Char}
    (h : c ∈ Text.padLeft width '0' (digits n)) : isAsciiDigit c = true := by
  rcases List.mem_append.1 h with h | h
  · exact isAsciiDigit_of_mem_zeros h
  · exact isAsciiDigit_of_mem_digits h

theorem le_length_padLeft (width : Nat) (t : Text) : width ≤ (Text.padLeft width '0' t).length := by
  rw [Text.padLeft, List.length_append, List.length_replicate]
  omega

/-! ### Digits around a point -/

/-- The digits in front of the point when `places` digits stand behind it. -/
def wholeDigits (n places : Nat) : Text :=
  let all := Text.padLeft (places + 1) '0' (digits n)
  all.take (all.length - places)

/-- The last `places` digits, with zeros in front of them where there are not enough. -/
def fractionDigits (n places : Nat) : Text :=
  let all := Text.padLeft (places + 1) '0' (digits n)
  all.drop (all.length - places)

theorem positional_negSucc (negative : Bool) (n e : Nat) :
    positional ⟨negative, n, .negSucc e⟩ =
      signText negative ++ (wholeDigits n (e + 1) ++ '.' :: fractionDigits n (e + 1)) :=
  rfl

section digits

variable {n places : Nat} {c : Char}

theorem isAsciiDigit_of_mem_wholeDigits (h : c ∈ wholeDigits n places) : isAsciiDigit c = true :=
  isAsciiDigit_of_mem_padLeft (List.mem_of_mem_take h)

theorem isAsciiDigit_of_mem_fractionDigits (h : c ∈ fractionDigits n places) :
    isAsciiDigit c = true :=
  isAsciiDigit_of_mem_padLeft (List.mem_of_mem_drop h)

variable (n places)

theorem wholeDigits_ne_nil : wholeDigits n places ≠ [] := by
  have hlen := le_length_padLeft (places + 1) (digits n)
  refine List.ne_nil_of_length_pos ?_
  rw [wholeDigits, List.length_take]
  omega

theorem length_fractionDigits : (fractionDigits n places).length = places := by
  have hlen := le_length_padLeft (places + 1) (digits n)
  rw [fractionDigits, List.length_drop]
  omega

theorem fractionDigits_succ_ne_nil : fractionDigits n (places + 1) ≠ [] :=
  List.ne_nil_of_length_pos (by rw [length_fractionDigits]; exact Nat.succ_pos places)

theorem digitsValue_wholeDigits_append :
    digitsValue (wholeDigits n places ++ fractionDigits n places) = n := by
  rw [wholeDigits, fractionDigits, List.take_append_drop, digitsValue_padLeft_digits]

end digits

end Decimal

/-! ### Bodies of numerals -/

/-- A text is the body of a plain numeral: digits with at most one point behind the first of them,
read as the decimal `v`. -/
structure Writes (body : Text) (v : ℚ) : Prop where
  plain : ∀ c ∈ body, isPlainNumeralChar c = true
  first : ∀ c ∈ body.head?, isAsciiDigit c = true
  count_point : body.count '.' ≤ 1
  reads : ∃ n e, unsigned? body = some (n, e) ∧ (n : ℚ) * 10 ^ e = v

theorem writes_whole {w : Text} (hw : ∀ c ∈ w, isAsciiDigit c = true) (hne : w ≠ []) :
    Writes w (digitsValue w) := by
  refine ⟨fun c hc => isPlainNumeralChar_of_digit (hw c hc),
    fun c hc => hw c (List.mem_of_mem_head? hc), ?_, digitsValue w, 0, ?_, ?_⟩
  · rw [List.count_eq_zero.2 (point_not_mem_of_digits hw)]
    exact Nat.zero_le 1
  · rw [Reading.unsigned?_whole hw, if_neg hne]
  · rw [zpow_zero, mul_one]

theorem writes_point {w f : Text} (hw : ∀ c ∈ w, isAsciiDigit c = true)
    (hf : ∀ c ∈ f, isAsciiDigit c = true) (hwne : w ≠ []) (hne : f ≠ []) :
    Writes (w ++ '.' :: f) (digitsValue (w ++ f) * 10 ^ (-(f.length : Int))) := by
  refine ⟨fun c hc => ?_, fun c hc => ?_, ?_, digitsValue (w ++ f), -(f.length : Int), ?_, rfl⟩
  · rcases List.mem_append.1 hc with hc | hc
    · exact isPlainNumeralChar_of_digit (hw c hc)
    · rcases List.mem_cons.1 hc with rfl | hc
      · decide
      · exact isPlainNumeralChar_of_digit (hf c hc)
  · rw [List.head?_append_of_ne_nil _ hwne] at hc
    exact hw c (List.mem_of_mem_head? hc)
  · rw [List.count_append, List.count_cons_self,
      List.count_eq_zero.2 (point_not_mem_of_digits hw),
      List.count_eq_zero.2 (point_not_mem_of_digits hf)]
  · rw [Reading.unsigned?_point hw hf, if_neg fun h => hne h.2]

theorem Writes.ne_nil {body : Text} {v : ℚ} (h : Writes body v) : body ≠ [] := by
  rintro rfl
  obtain ⟨n, e, hu, -⟩ := h.reads
  cases hu

/-- A positional text is a sign and a body that is read as what was written. -/
theorem Decimal.exists_body {c : Decimal} (h : c.coefficient ≠ 0) :
    ∃ body, c.positional = signText c.negative ++ body ∧ Writes body c.magnitude.toRat := by
  rw [toRat_magnitude]
  obtain ⟨negative, n, e⟩ := c
  change n ≠ 0 at h
  cases e with
  | ofNat e =>
      refine ⟨digits n ++ List.replicate e '0', ?_, ?_⟩
      · rw [positional]
        dsimp only
        rw [if_neg h]
      · have hw := writes_whole (fun _ => isAsciiDigit_of_mem_digits_zeros (n := n) (e := e))
          (List.append_ne_nil_of_left_ne_nil (digits_ne_nil n) _)
        rw [digitsValue_digits_append_zeros, Nat.cast_mul, Nat.cast_pow, Nat.cast_ofNat] at hw
        rwa [Int.ofNat_eq_natCast, zpow_natCast]
  | negSucc e =>
      have hw := writes_point (fun _ => isAsciiDigit_of_mem_wholeDigits)
        (fun _ => isAsciiDigit_of_mem_fractionDigits) (wholeDigits_ne_nil n (e + 1))
        (fractionDigits_succ_ne_nil n e)
      rw [digitsValue_wholeDigits_append, length_fractionDigits] at hw
      exact ⟨_, positional_negSucc negative n e, hw⟩

/-! ### Plain texts -/

theorem Decimal.toFloat_of_toRat_eq_zero {c : Decimal} (h : c.magnitude.toRat = 0) :
    c.toFloat = floatOfMagnitude c.negative 0 := by
  have hc : c.coefficient = 0 := by
    rw [toRat_magnitude, mul_eq_zero, Nat.cast_eq_zero] at h
    exact h.resolve_right (zpow_pos (by norm_num) _).ne'
  rw [toFloat, if_pos]
  rw [hc, decide_eq_true rfl, Bool.true_or]

theorem Dyadic.eq_zero_of_mantissa {x : Float} {d : Dyadic} (hd : ofFloat? x = some d)
    (hm : d.mantissa = 0) (h0 : x ≠ -0.0) : floatOfMagnitude false 0 = x := by
  have hp : d.pattern = 0 := by
    have hhidden := (canonical_of_ofFloat? hd).hidden
    rw [pattern, hm, hhidden.resolve_right (by omega), sub_self]
    rfl
  have hx := floatOfMagnitude_pattern hd
  rw [hp] at hx
  cases hneg : d.negative with
  | false => rwa [hneg] at hx
  | true =>
      rw [hneg] at hx
      exact absurd hx.symm h0

theorem Dyadic.negative_shortest (d : Dyadic) : d.shortest.negative = d.negative := by
  unfold shortest
  split <;> rfl

theorem Writes.exists_numeral {body : Text} {v : ℚ} (h : Writes body v) (negative : Bool) :
    ∃ (n : Numeral) (c : Decimal), n.text = Decimal.signText negative ++ body ∧ n.body = body ∧
      n.value = .ok c.toFloat ∧ c.negative = negative ∧ c.magnitude.toRat = v := by
  obtain ⟨k, e, hu, hv⟩ := h.reads
  have hnum : ∀ c ∈ body, isNumeralChar c = true := by
    intro c hc
    exact isNumeralChar_of_plain (h.plain c hc)
  let n : Numeral := ⟨negative, body, h.ne_nil, List.all_eq_true.2 hnum⟩
  refine ⟨n, ⟨negative, k, e⟩, ?_, rfl, ?_, rfl, ?_⟩
  · cases negative <;> rfl
  · rw [Numeral.value, readNumber, n.count_point_text, if_neg (not_lt.2 h.count_point),
      Numeral.text, Reading.float?_eq negative h.ne_nil hnum, Reading.map_plain_eq h.plain, hu]
    rfl
  · rw [Decimal.toRat_magnitude]
    exact hv

/-- The plain text of a finite double is a plain numeral that begins with a digit and whose value is
the double; the negative zero is the one exception. -/
theorem exists_numeral_plainText {x : Float} (hx : x.isFinite = true) (h0 : x ≠ -0.0) :
    ∃ n : Numeral, n.text = plainText x ∧ (∀ c ∈ n.body, isPlainNumeralChar c = true) ∧
      (∀ c ∈ n.body.head?, isAsciiDigit c = true) ∧ n.value = .ok x := by
  obtain ⟨d, hd⟩ := Dyadic.exists_of_isFinite hx
  rw [plainText, hd]
  dsimp only
  have hc := Dyadic.canonical_of_ofFloat? hd
  by_cases hm : d.mantissa = 0
  · have hw : Writes ['0'] 0 := by
      have h := writes_whole (w := ['0']) (List.forall_mem_singleton.2 rfl) (List.cons_ne_nil _ _)
      rwa [show digitsValue ['0'] = 0 from rfl, Nat.cast_zero] at h
    obtain ⟨n, c, ht, hb, hv, hneg, hval⟩ := hw.exists_numeral false
    refine ⟨n, ?_, ?_, ?_, ?_⟩
    · rw [if_pos hm]
      exact ht
    · rw [hb]
      exact hw.plain
    · rw [hb]
      exact hw.first
    · rw [hv, Decimal.toFloat_of_toRat_eq_zero hval, hneg, Dyadic.eq_zero_of_mantissa hd hm h0]
  · have hpos : 0 < d.mantissa := Nat.pos_of_ne_zero hm
    have hi := Dyadic.contains_shortest hc hpos
    obtain ⟨body, hbody, hw⟩ :=
      Decimal.exists_body (Decimal.coefficient_ne_zero_of_contains hc hpos hi)
    obtain ⟨n, c, ht, hb, hv, hneg, hval⟩ := hw.exists_numeral d.shortest.negative
    refine ⟨n, ?_, ?_, ?_, ?_⟩
    · rw [if_neg hm, hbody]
      exact ht
    · rw [hb]
      exact hw.plain
    · rw [hb]
      exact hw.first
    · rw [← RoundingInterval.contains_congr hval] at hi
      rw [hv, Decimal.toFloat_of_contains hd hpos (hneg.trans d.negative_shortest) hi]

end PocketCalculator
