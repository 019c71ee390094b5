import PocketCalculator.Proofs.Format.Engineering
import PocketCalculator.Proofs.Format.Sexagesimal

/-! # The number that a text shows

A shown text is an angle, a fraction, or a decimal with or without a power of ten behind it.
`shownNumber?` tells them apart by their marks and reads the number: of a plain numeral its value,
of a scientific text that of the decimal, and of either one in front of a power of ten the product
(`shownNumber?_append`). -/

namespace PocketCalculator

open Decimal (digits isAsciiDigit_of_mem_digits signText)
open Reading (decimal?)

/-! ### Powers of ten -/

/-- Reads the exponent of a power of ten; it is zero where no power stands. -/
def powerExponent? : Text → Option ℤ
  | [] => some 0
  | '×' :: '1' :: '0' :: '^' :: t => whole? t
  | _ => none

theorem powerExponent?_powerText (k : ℤ) : powerExponent? (powerText k) = some k := by
  rw [powerText]
  split
  · rename_i hk
    rw [hk]
    rfl
  · exact whole?_wholeText k

theorem mem_powerText {k : ℤ} {x : Char} (h : x ∈ powerText k) :
    isAsciiDigit x = true ∨ x ∈ ['-', '×', '^'] := by
  rw [powerText] at h
  split at h
  · cases h
  · rcases List.mem_append.1 h with h | h
    · simp only [Marker.text, List.mem_cons, List.not_mem_nil, or_false] at h
      rcases h with rfl | rfl | rfl | rfl <;> decide
    · rw [← text_wholeNumeral] at h
      have hpoint : '.' ∉ (wholeNumeral k).text :=
        mt (wholeNumeral k).point_mem_text.1 (not_not.2 rfl)
      rcases PlainNumeral.mem_text h with h' | rfl | rfl
      · exact .inl h'
      · exact .inr (by decide)
      · exact absurd h hpoint

/-! ### The number -/

namespace Sexagesimal

/-- The angle in degrees. -/
def value (f : Sexagesimal) : ℚ :=
  signed f.negative f.size

end Sexagesimal

/-- Reads a decimal, and the power of ten behind it. -/
def scaled? (t : Text) : Option ℚ := do
  let c ← decimal? (t.takeWhile (· != '×'))
  let k ← powerExponent? (t.dropWhile (· != '×'))
  return c.value * 10 ^ k

/-- The number that a text of a display format shows.  An angle is counted in degrees. -/
def shownNumber? (t : Text) : Option ℚ :=
  if '°' ∈ t then (Sexagesimal.read? t).map Sexagesimal.value
  else if '/' ∈ t then (ShownFraction.read? t).map ShownFraction.value
  else scaled? t

theorem shownNumber?_sexagesimal (f : Sexagesimal) : shownNumber? f.text = some f.value := by
  rw [shownNumber?, if_pos (by simp [Sexagesimal.text]), f.read?_text, Option.map_some]

theorem shownNumber?_fraction {f : ShownFraction} (h : '/' ∈ f.text) :
    shownNumber? f.text = some f.value := by
  have hdigits (n : ℕ) : '°' ∉ digits n :=
    fun h => absurd (isAsciiDigit_of_mem_digits h) (by decide)
  have hmark : '°' ∉ f.text := by
    obtain ⟨negative, body⟩ := f
    cases negative <;> cases body <;>
      simp [ShownFraction.text, FractionBody.text, signText, hdigits]
  rw [shownNumber?, if_neg hmark, if_pos h, f.read?_text, Option.map_some]

/-- A decimal with a power of ten behind it shows the product. -/
theorem shownNumber?_append {t : Text} {c : Decimal} (k : ℤ)
    (ht : ∀ x ∈ t, isAsciiDigit x = true ∨ x ∈ ['-', '+', '.', 'e']) (hc : decimal? t = some c) :
    shownNumber? (t ++ powerText k) = some (c.value * 10 ^ k) := by
  have hmark {x : Char} (hfront : ¬(isAsciiDigit x = true ∨ x ∈ ['-', '+', '.', 'e']))
      (hback : ¬(isAsciiDigit x = true ∨ x ∈ ['-', '×', '^'])) : x ∉ t ++ powerText k := by
    intro hx
    rcases List.mem_append.1 hx with hx | hx
    · exact hfront (ht x hx)
    · exact hback (mem_powerText hx)
  have hcross : ∀ x ∈ t, (x != '×') = true := by
    intro x hx
    rw [bne_iff_ne]
    rintro rfl
    exact absurd (ht '×' hx) (by decide)
  obtain ⟨htake, hdrop⟩ := Text.takeWhile_append hcross (head?_powerText k)
  rw [shownNumber?, if_neg (hmark (by decide) (by decide)),
    if_neg (hmark (by decide) (by decide)), scaled?, htake, hdrop, hc, powerExponent?_powerText]
  rfl

theorem mem_plainNumeral {n : PlainNumeral} {x : Char} (h : x ∈ n.text) :
    isAsciiDigit x = true ∨ x ∈ ['-', '+', '.', 'e'] := by
  rcases PlainNumeral.mem_text h with h | rfl | rfl
  · exact .inl h
  · exact .inr (by decide)
  · exact .inr (by decide)

end PocketCalculator
