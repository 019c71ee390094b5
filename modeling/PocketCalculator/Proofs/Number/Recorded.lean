import PocketCalculator.Proofs.Number.Positional

/-! # The decimal that a text writes

A text in the notation of recorded values writes one decimal exactly, which `Reading.decimal?` reads
off.  The recorded text of a double writes its shortest decimal, whichever layout it has:
`exists_decimal?_recordText`. -/

namespace PocketCalculator

open Reading (digitsValue unsigned? exponent?)

namespace Reading

/-- The decimal that a text writes: a sign, and digits with a possible point and exponent. -/
def decimal? (t : Text) : Option Decimal :=
  let (negative, body) := splitSign t
  (unsigned? body).map fun d => ⟨negative, d.1, d.2⟩

theorem decimal?_signText (negative : Bool) {c : Char} (hc : isAsciiDigit c = true) (rest : Text) :
    decimal? (Decimal.signText negative ++ c :: rest) =
      (unsigned? (c :: rest)).map fun d => ⟨negative, d.1, d.2⟩ := by
  cases negative with
  | true => rfl
  | false =>
      have hsplit : splitSign (c :: rest) = (false, c :: rest) := by
        have hm : c ≠ '-' := by
          rintro rfl
          exact absurd hc (by decide)
        have hp : c ≠ '+' := by
          rintro rfl
          exact absurd hc (by decide)
        rw [splitSign]
        · exact fun _ e => hm (List.cons.inj e).1
        · exact fun _ e => hp (List.cons.inj e).1
      rw [decimal?, Decimal.signText, if_neg Bool.false_ne_true, List.nil_append, hsplit]

/-! ### Digits, a point and an exponent -/

/-- The exponent follows the digits in front of the point, and those behind it if there are any. -/
theorem unsigned?_exponent {w f tail : Text} (hw : ∀ c ∈ w, isAsciiDigit c = true)
    (hf : ∀ c ∈ f, isAsciiDigit c = true) (hwne : w ≠ [])
    (htail : ∀ c ∈ tail.head?, isPlainNumeralChar c = false) :
    unsigned? (w ++ (if f = [] then [] else '.' :: f) ++ tail) =
      (exponent? tail).map fun e => (digitsValue (w ++ f), e - (f.length : Int)) := by
  have htail' : ∀ c ∈ tail.head?, isAsciiDigit c = false := by
    intro c hc
    have := htail c hc
    rw [isPlainNumeralChar, Bool.or_eq_false_iff] at this
    exact this.1
  by_cases hf0 : f = []
  · subst hf0
    obtain ⟨htake, hdrop⟩ := Text.takeWhile_append hw htail'
    simp only [if_true, List.append_nil, List.length_nil]
    rw [unsigned?, htake, hdrop]
    cases tail with
    | nil => simp [hwne, exponent?]
    | cons c tail =>
        have hp : c ≠ '.' := by
          rintro rfl
          exact absurd (htail '.' rfl) (by decide)
        simp [hwne, hp]
  · obtain ⟨htake, hdrop⟩ := Text.takeWhile_append hf htail'
    rw [if_neg hf0, List.append_assoc, List.cons_append, unsigned?, (takeWhile_digits hw).1,
      (takeWhile_digits hw).2]
    simp [htake, hdrop, hwne]

end Reading

open Reading (decimal?)

namespace Decimal

theorem digitsValue_digits (n : Nat) : digitsValue (digits n) = n := by
  rw [digitsValue, digits, Nat.ofDigitChars_ten_toDigits]

theorem exponent?_scientific (lead : Int) :
    exponent? ('e' :: (if lead < 0 then '-' else '+') :: Text.padLeft 2 '0' (digits lead.natAbs)) =
      some lead := by
  have hvalue := digitsValue_padLeft_digits 2 lead.natAbs
  have hdigits : ∀ c ∈ Text.padLeft 2 '0' (digits lead.natAbs), isAsciiDigit c = true :=
    fun c hc => isAsciiDigit_of_mem_padLeft hc
  have hne : Text.padLeft 2 '0' (digits lead.natAbs) ≠ [] := by
    have := le_length_padLeft 2 (digits lead.natAbs)
    rw [← List.length_pos_iff]
    omega
  generalize Text.padLeft 2 '0' (digits lead.natAbs) = run at hvalue hdigits hne
  by_cases hlead : lead < 0
  · rw [if_pos hlead]
    have hread : exponent? ('e' :: '-' :: run) = some (-(digitsValue run : Int)) := by
      simpa [exponent?, Reading.splitSign, hne] using hdigits
    rw [hread, hvalue]
    congr 1
    omega
  · rw [if_neg hlead]
    have hread : exponent? ('e' :: '+' :: run) = some (digitsValue run : Int) := by
      simpa [exponent?, Reading.splitSign, hne] using hdigits
    rw [hread, hvalue]
    congr 1
    omega

theorem decimal?_scientific (c : Decimal) : decimal? c.scientific = some c := by
  obtain ⟨x, rest, hx⟩ := List.exists_cons_of_ne_nil (digits_ne_nil c.coefficient)
  have hdigit : ∀ y ∈ digits c.coefficient, isAsciiDigit y = true :=
    fun y hy => isAsciiDigit_of_mem_digits hy
  have hlength : Ratio.decimalLength c.coefficient = rest.length + 1 := by
    have := congrArg List.length hx
    simpa [digits, Ratio.decimalLength] using this
  rw [hx] at hdigit
  have htext : c.scientific = signText c.negative ++ x :: ((if rest = [] then [] else '.' :: rest) ++
      'e' :: (if c.leadingExponent < 0 then '-' else '+') ::
        Text.padLeft 2 '0' (digits c.leadingExponent.natAbs)) := by
    simp [scientific, hx]
  have hread := @Reading.unsigned?_exponent [x] rest
    ('e' :: (if c.leadingExponent < 0 then '-' else '+') ::
      Text.padLeft 2 '0' (digits c.leadingExponent.natAbs))
    (fun y hy => hdigit y (by simp_all)) (fun y hy => hdigit y (by simp [hy])) (by simp)
    (by simp; decide)
  rw [exponent?_scientific, List.singleton_append, List.cons_append, List.singleton_append, ← hx,
    digitsValue_digits] at hread
  rw [htext, Reading.decimal?_signText _ (hdigit x List.mem_cons_self), hread]
  simp only [Option.map_some, leadingExponent, hlength]
  congr 1
  obtain ⟨negative, n, e⟩ := c
  simp

end Decimal

/-! ### Plain numerals -/

theorem digitsValue_concat_zero (t : Text) : digitsValue (t ++ ['0']) = 10 * digitsValue t := by
  rw [digitsValue, Nat.ofDigitChars_append]
  exact @Nat.ofDigitChars_replicate_zero 10 (digitsValue t) 1

namespace PlainNumeral

theorem exists_decimal?_text (n : PlainNumeral) :
    ∃ c, decimal? n.text = some c ∧ c.negative = n.negative ∧ c.value = n.value := by
  have hread := @Reading.unsigned?_exponent _ _ [] n.isDigit_whole n.isDigit_fraction
    n.whole_ne_nil (by simp)
  obtain ⟨x, w, hw⟩ := List.exists_cons_of_ne_nil n.whole_ne_nil
  have hx := n.isDigit_whole x (hw ▸ List.mem_cons_self)
  refine ⟨⟨n.negative, digitsValue (n.whole ++ n.fraction), -n.fraction.length⟩, ?_, rfl, ?_⟩
  · rw [List.append_nil] at hread
    rw [text, List.append_assoc]
    rw [hw, List.cons_append] at hread ⊢
    rw [Reading.decimal?_signText _ hx, hread]
    simp [exponent?]
  · rw [Decimal.value_eq, value, size, div_eq_mul_inv, zpow_neg, zpow_natCast]

theorem value_eq_of_text_eq {m n : PlainNumeral} (h : m.text = n.text) : m.value = n.value := by
  obtain ⟨c, hc, -, hvalue⟩ := m.exists_decimal?_text
  obtain ⟨c', hc', -, hvalue'⟩ := n.exists_decimal?_text
  rw [h, hc', Option.some.injEq] at hc
  rw [← hvalue, ← hvalue', hc]

theorem point_mem_text (n : PlainNumeral) : '.' ∈ n.text ↔ n.fraction ≠ [] := by
  have hwhole := point_not_mem_of_digits n.isDigit_whole
  rw [text]
  by_cases hf : n.fraction = []
  · cases n.negative <;> simp [hf, hwhole, Decimal.signText]
  · simp [hf]

/-- The numeral with a zero behind a point. -/
def withZero (n : PlainNumeral) : PlainNumeral :=
  ⟨n.negative, n.whole, ['0'], n.whole_ne_nil, n.isDigit_whole, by simp [isAsciiDigit]⟩

theorem text_withZero {n : PlainNumeral} (hf : n.fraction = []) :
    n.withZero.text = n.text ++ ['.', '0'] := by
  simp [text, withZero, hf]

theorem value_withZero {n : PlainNumeral} (hf : n.fraction = []) : n.withZero.value = n.value := by
  simp [value, size, withZero, hf, digitsValue_concat_zero]

end PlainNumeral

/-! ### Recorded texts -/

theorem exists_decimal?_layout (layout : RecordLayout) (c : Decimal) :
    ∃ c', decimal? (layout.decimal c) = some c' ∧ c'.negative = c.negative ∧
      c'.value = c.value := by
  rw [RecordLayout.decimal]
  split
  · obtain ⟨n, htext, hnegative, -, hvalue⟩ := c.exists_plainNumeral
    dsimp only
    rw [← htext, ← hnegative, ← hvalue]
    by_cases hf : n.fraction = []
    · have hpoint : n.text.contains '.' = false := by
        simpa using (not_congr n.point_mem_text).2 (not_not.2 hf)
      rw [hpoint, if_neg Bool.false_ne_true, ← PlainNumeral.text_withZero hf,
        ← PlainNumeral.value_withZero hf]
      exact n.withZero.exists_decimal?_text
    · have hpoint : n.text.contains '.' = true := by
        simpa using n.point_mem_text.2 hf
      rw [hpoint, if_pos rfl]
      exact n.exists_decimal?_text
  · exact ⟨c, c.decimal?_scientific, rfl, rfl⟩

/-- The recorded text of a finite double writes its shortest decimal. -/
theorem exists_decimal?_recordText {x : Float} {d : Dyadic} (hx : Dyadic.ofFloat? x = some d) :
    ∃ c, decimal? (recordText x) = some c ∧ c.negative = d.negative ∧
      c.value = d.shortest.value := by
  rw [recordText, RecordLayout.text, hx, ← d.negative_shortest]
  exact exists_decimal?_layout _ _

end PocketCalculator
