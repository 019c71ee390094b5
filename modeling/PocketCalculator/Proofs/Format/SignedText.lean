import PocketCalculator.Proofs.Format.Fraction

/-! # Reading texts with a sign

A sign in front of digits is the only one, so it can be told apart from them (`head?_signText`,
`readSigned?_signText`).  Plain numerals and whole numbers read back: `PlainNumeral.read?_text`,
`whole?_wholeText`. -/

namespace PocketCalculator

open Decimal (digits digits_ne_nil isAsciiDigit_of_mem_digits signText)
open FractionBody (natural? natural?_digits)

/-! ### A sign and digits -/

section sign

variable {t : Text} (negative : Bool) (ht : ∀ c ∈ t.head?, isAsciiDigit c = true)

theorem head?_digits_append (n : ℕ) (rest : Text) :
    ∀ c ∈ (digits n ++ rest).head?, isAsciiDigit c = true := by
  rw [List.head?_append_of_ne_nil _ (digits_ne_nil n)]
  exact fun c hc => isAsciiDigit_of_mem_digits (List.mem_of_mem_head? hc)

include ht

/-- A sign in front of digits is the only one. -/
theorem head?_signText : (signText negative ++ t).head? = some '-' ↔ negative = true := by
  cases negative with
  | true => exact iff_of_true rfl rfl
  | false =>
      refine iff_of_false (fun h => ?_) Bool.false_ne_true
      exact absurd (ht '-' h) (by decide)

omit ht in
/-- Reads a sign, and what stands behind it. -/
def readSigned? {α : Type} (read : Bool → Text → Option α) : Text → Option α
  | '-' :: t => read true t
  | t => read false t

theorem readSigned?_signText {α : Type} (read : Bool → Text → Option α) :
    readSigned? read (signText negative ++ t) = read negative t := by
  cases negative with
  | true => rfl
  | false =>
      rw [signText, if_neg Bool.false_ne_true, List.nil_append, readSigned?]
      rintro rest rfl
      exact absurd (ht '-' rfl) (by decide)

end sign

/-! ### Plain numerals -/

namespace PlainNumeral

/-- The plain numeral of its digits. -/
def ofDigits? (negative : Bool) (whole fraction : Text) : Option PlainNumeral :=
  if h : whole ≠ [] ∧ whole.all isAsciiDigit = true ∧ fraction.all isAsciiDigit = true then
    some ⟨negative, whole, fraction, h.1, List.all_eq_true.1 h.2.1, List.all_eq_true.1 h.2.2⟩
  else none

/-- Digits, and digits behind a point if there is one. -/
def unsigned? (negative : Bool) (t : Text) : Option PlainNumeral :=
  match t.dropWhile isAsciiDigit with
  | [] => ofDigits? negative (t.takeWhile isAsciiDigit) []
  | '.' :: c :: fraction => ofDigits? negative (t.takeWhile isAsciiDigit) (c :: fraction)
  | _ => none

/-- Reads a plain numeral with its sign. -/
def read? (t : Text) : Option PlainNumeral :=
  readSigned? unsigned? t

/-- The text of a plain numeral reads back. -/
theorem read?_text (n : PlainNumeral) : read? n.text = some n := by
  obtain ⟨negative, whole, fraction, hne, hwhole, hfraction⟩ := n
  obtain ⟨htake, hdrop⟩ := @Text.takeWhile_append isAsciiDigit whole
    (if fraction = [] then [] else '.' :: fraction) hwhole (by split <;> simp; decide)
  have hdigits : ofDigits? negative whole fraction =
      some ⟨negative, whole, fraction, hne, hwhole, hfraction⟩ :=
    dif_pos ⟨hne, List.all_eq_true.2 hwhole, List.all_eq_true.2 hfraction⟩
  rw [text, List.append_assoc, read?, readSigned?_signText, unsigned?, htake, hdrop]
  · cases fraction <;> exact hdigits
  · rw [List.head?_append_of_ne_nil _ hne]
    exact fun c hc => hwhole c (List.mem_of_mem_head? hc)

end PlainNumeral

/-! ### Whole numbers -/

theorem wholeText_natCast (n : ℕ) : wholeText n = digits n := by
  have hsign : decide ((n : ℤ) < 0) = false := decide_eq_false (by omega)
  rw [wholeText, hsign]
  rfl

/-- A whole number as a plain numeral. -/
def wholeNumeral (n : ℤ) : PlainNumeral :=
  ⟨decide (n < 0), digits n.natAbs, [], digits_ne_nil _, fun _ h => isAsciiDigit_of_mem_digits h,
    PlainNumeral.isDigit_nil⟩

theorem text_wholeNumeral (n : ℤ) : (wholeNumeral n).text = wholeText n := by
  simp [PlainNumeral.text, wholeNumeral, wholeText]

theorem value_wholeNumeral (n : ℤ) : (wholeNumeral n).value = n := by
  rw [cast_eq_signed n, PlainNumeral.value, PlainNumeral.size, wholeNumeral]
  simp only [List.append_nil, List.length_nil, pow_zero, div_one, Decimal.digitsValue_digits]

/-- Reads a whole number with its sign. -/
def whole? (t : Text) : Option ℤ :=
  readSigned? (fun negative t => (natural? t).map (signedWhole negative)) t

theorem whole?_wholeText (n : ℤ) : whole? (wholeText n) = some n := by
  have hhead := head?_digits_append n.natAbs []
  rw [List.append_nil] at hhead
  rw [wholeText, whole?, readSigned?_signText _ hhead, natural?_digits, Option.map_some,
    signedWhole_natAbs]

end PocketCalculator
