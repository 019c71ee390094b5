import PocketCalculator.Settings
import PocketCalculator.Proofs.Format.Fixed
import PocketCalculator.Proofs.Format.ShownNumber

/-! # A minus in front of a shown number

In every display format a text with a minus shows a number below zero, and the other way round
(`Shows`).  Each format has its own way to lose the sign of a zero: whole numbers have none, the
fixed format asks whether the rounded number is zero, the zeros that are taken off take the sign
with them, and a fraction has that of its numerator.  The sexagesimal format alone takes the sign of
the value before it is rounded, so it shows a negative zero when less than half a hundredth of a
second is left: `render_minus`. -/

namespace PocketCalculator

open Decimal (digits digits_ne_nil isAsciiDigit_of_mem_digits)
open Reading (decimal?)

/-- The text shows the number, with a minus in front exactly when it is below zero. -/
def Shows (t : Text) (q : ℚ) : Prop :=
  shownNumber? t = some q ∧ (t.head? = some '-' ↔ q < 0)

/-! ### Decimals -/

/-- A decimal, with or without a power of ten behind it, has the sign of its value. -/
theorem shows_append {t : Text} {c : Decimal} (k : ℤ)
    (ht : ∀ x ∈ t, isAsciiDigit x = true ∨ x ∈ ['-', '+', '.', 'e']) (hc : decimal? t = some c)
    (hne : t ≠ []) (hsign : t.head? = some '-' ↔ c.value < 0) :
    Shows (t ++ powerText k) (c.value * 10 ^ k) := by
  refine ⟨shownNumber?_append k ht hc, ?_⟩
  rw [List.head?_append_of_ne_nil _ hne, hsign, ← not_le, ← not_le,
    mul_nonneg_iff_of_pos_right (zpow_pos (by norm_num) k)]

theorem PlainNumeral.value_neg_iff (n : PlainNumeral) :
    n.value < 0 ↔ n.negative = true ∧ n.value ≠ 0 := by
  have hsize : 0 ≤ n.size := by
    rw [size]
    positivity
  rw [value, signed_neg_iff _ hsize]
  refine and_congr_right fun _ => not_congr ?_
  rw [← abs_eq_zero, ← abs_eq_zero (a := signed _ _), abs_signed]

theorem PlainNumeral.text_ne_nil (n : PlainNumeral) : n.text ≠ [] := by
  have := n.whole_ne_nil
  simp [text, this]

theorem PlainNumeral.shows_append {n : PlainNumeral} (k : ℤ)
    (h : n.text.head? = some '-' ↔ n.value < 0) :
    Shows (n.text ++ powerText k) (n.value * 10 ^ k) := by
  obtain ⟨c, hc, -, hvalue⟩ := n.exists_decimal?_text
  rw [← hvalue] at h ⊢
  exact PocketCalculator.shows_append k (fun _ hx => mem_plainNumeral hx) hc n.text_ne_nil h

theorem PlainNumeral.shows {n : PlainNumeral} (h : n.text.head? = some '-' ↔ n.value < 0) :
    Shows n.text n.value := by
  have := PlainNumeral.shows_append 0 h
  rwa [powerText, if_pos rfl, List.append_nil, zpow_zero, mul_one] at this

theorem shows_wholeText (n : ℤ) : Shows (wholeText n) n := by
  have hshows := @PlainNumeral.shows (wholeNumeral n) (by
    rw [PlainNumeral.head?_text, value_wholeNumeral, Int.cast_lt_zero]
    exact decide_eq_true_iff)
  rwa [text_wholeNumeral, value_wholeNumeral] at hshows

/-! ### Significant digits -/

namespace Decimal

variable {c : Decimal}

theorem value_neg_iff (h : c.coefficient ≠ 0) : c.value < 0 ↔ c.negative = true := by
  have hpos : 0 < (c.coefficient : ℚ) * 10 ^ c.exponent :=
    mul_pos (Nat.cast_pos.2 (Nat.pos_of_ne_zero h)) (zpow_pos (by norm_num) _)
  rw [value_eq, signed_neg_iff _ hpos.le, and_iff_left hpos.ne']

theorem value_ne_zero (h : c.coefficient ≠ 0) : c.value ≠ 0 := by
  rw [← abs_pos, value_eq, abs_signed, abs_pos]
  exact mul_ne_zero (Nat.cast_ne_zero.2 h) (zpow_pos (by norm_num) _).ne'

theorem shows_positional (h : c.coefficient ≠ 0) (k : ℤ) :
    Shows (c.positional ++ powerText k) (c.value * 10 ^ k) ∧
      Shows (trimZeros c.positional ++ powerText k) (c.value * 10 ^ k) := by
  obtain ⟨n, hn, -, -, hvalue⟩ := c.exists_plainNumeral
  obtain ⟨m, hm, hmvalue⟩ := n.exists_trimZeros
  have hsign {n : PlainNumeral} (hn : n.value = c.value) :
      n.text.head? = some '-' ↔ n.value < 0 := by
    rw [n.head?_text, n.value_neg_iff, and_iff_left]
    rw [hn]
    exact value_ne_zero h
  rw [← hn, ← hm, ← hvalue]
  refine ⟨PlainNumeral.shows_append k (hsign hvalue), ?_⟩
  rw [← hmvalue]
  exact PlainNumeral.shows_append k (hsign (hmvalue.trans hvalue))

theorem shows_scientific (h : c.coefficient ≠ 0) (k : ℤ) :
    Shows (c.scientific ++ powerText k) (c.value * 10 ^ k) := by
  refine shows_append k (fun x hx => mem_scientific hx) c.decimal?_scientific
    (List.ne_nil_of_mem (exponent_mem_scientific c)) ?_
  obtain ⟨x, rest, hx⟩ := List.exists_cons_of_ne_nil (digits_ne_nil c.coefficient)
  rw [value_neg_iff h, scientific, List.append_assoc, List.append_assoc]
  refine head?_signText _ fun y hy => ?_
  rw [hx] at hy
  obtain rfl : x = y := by simpa using hy
  exact isAsciiDigit_of_mem_digits (hx ▸ List.mem_cons_self)

end Decimal

theorem trimZeros_concat {t : Text} {x : Char} (h0 : x ≠ '0') (hpoint : x ≠ '.') :
    trimZeros (t ++ [x]) = t ++ [x] := by
  have hkept : (if (t ++ [x]).contains '.' then
      Text.dropTrailing '.' (Text.dropTrailing '0' (t ++ [x])) else t ++ [x]) = t ++ [x] := by
    rw [Text.dropTrailing_concat, if_neg h0, Text.dropTrailing_concat, if_neg hpoint, ite_self]
  rw [trimZeros, hkept, if_neg]
  rintro (h | h)
  · have := congrArg List.getLast? h
    rw [List.getLast?_concat] at this
    exact h0 (by simpa using this)
  · simp at h

/-- A small exponent of a scientific text does not end with a zero, so it is kept. -/
theorem trimZeros_scientific {c : Decimal} (hlow : 1 ≤ c.leadingExponent)
    (hhigh : c.leadingExponent ≤ 3) : trimZeros c.scientific = c.scientific := by
  have hlast : ∃ x ∈ ['1', '2', '3'],
      Text.padLeft 2 '0' (digits c.leadingExponent.natAbs) = ['0', x] := by
    obtain h | h | h : c.leadingExponent = 1 ∨ c.leadingExponent = 2 ∨ c.leadingExponent = 3 := by
      omega
    · exact ⟨'1', by simp, by rw [h]; decide⟩
    · exact ⟨'2', by simp, by rw [h]; decide⟩
    · exact ⟨'3', by simp, by rw [h]; decide⟩
  obtain ⟨x, hx, hpad⟩ := hlast
  have htext : ∃ t, c.scientific = t ++ [x] := by
    rw [Decimal.scientific, hpad]
    exact ⟨_, (List.append_assoc _ ['e', if c.leadingExponent < 0 then '-' else '+', '0'] [x]).symm⟩
  obtain ⟨t, ht⟩ := htext
  rw [ht]
  apply trimZeros_concat <;> rintro rfl <;> exact absurd hx (by decide)

section significant

variable {d : Dyadic} (hm : 0 < d.mantissa) (count : ℕ)

include hm

theorem significant_coefficient_ne_zero :
    (d.significant (effectiveCount count)).coefficient ≠ 0 := by
  have hnum := (d.magnitude_num_pos hm).ne'
  refine Decimal.coefficient_ne_zero ?_
  rw [Dyadic.toRat_significant hm]
  exact (zpow_pos (by norm_num) _).trans_le (Ratio.zpow_le_rounded hnum (effectiveCount_pos count)
    (Ratio.decimalExponent_spec hnum).1)

theorem shows_significantText :
    Shows (d.significantText count) (d.significant (effectiveCount count)).value := by
  have hcoefficient := significant_coefficient_ne_zero hm count
  have hpositional := (Decimal.shows_positional hcoefficient 0).1
  have hscientific := Decimal.shows_scientific hcoefficient 0
  rw [powerText, if_pos rfl, List.append_nil, zpow_zero, mul_one] at hpositional hscientific
  rw [Dyadic.significantText]
  split
  · exact hpositional
  · exact hscientific

/-- A number from one tenth up to a thousand with significant digits, zeros left out, and a power of
ten behind it. -/
theorem shows_trimmed (hlow : 1 / 10 ≤ d.magnitude.toRat) (hhigh : d.magnitude.toRat ≤ 1001)
    (k : ℤ) : Shows (trimZeros (d.significantText count) ++ powerText k)
      ((d.significant (effectiveCount count)).value * 10 ^ k) := by
  have hnum := (d.magnitude_num_pos hm).ne'
  have hcount := effectiveCount_pos count
  have hcoefficient := significant_coefficient_ne_zero hm count
  have hlead : (d.significant (effectiveCount count)).leadingExponent < 4 := by
    have hcut := (cut_bounds hcount).2
    rw [Decimal.leadingExponent_lt_iff hcoefficient, Dyadic.toRat_significant hm,
      Ratio.rounded_lt_iff hnum hcount]
    norm_num1 at hcut ⊢
    linarith
  have hlead' : -1 ≤ (d.significant (effectiveCount count)).leadingExponent := by
    by_contra hlt
    have hsmall := (Decimal.leadingExponent_lt_iff hcoefficient).1 (not_le.1 hlt)
    rw [Dyadic.toRat_significant hm] at hsmall
    exact absurd hsmall (not_lt.2 (Ratio.zpow_le_rounded hnum hcount (by norm_num; linarith)))
  rw [Dyadic.significantText]
  split
  · exact (Decimal.shows_positional hcoefficient k).2
  · rename_i hlong
    rw [trimZeros_scientific (by omega) (by omega)]
    exact Decimal.shows_scientific hcoefficient k

end significant

/-! ### The formats -/

theorem withDigits_eq_ok {n : ℤ} {shown : ℕ → Text} {t : Text} (h : withDigits n shown = .ok t) :
    0 ≤ n ∧ n ≤ greatestDigits ∧ shown n.toNat = t := by
  rw [withDigits] at h
  split at h
  · cases h
  · cases h
    refine ⟨by omega, by omega, rfl⟩

theorem eq_of_fixedDecimal {c r : Decimal} {places : ℕ} (h : fixedDecimal c places = .ok r) :
    r = ⟨c.negative && (c.toPlaces (min places greatestPlaces)).coefficient ≠ 0,
      (c.toPlaces (min places greatestPlaces)).coefficient, -(min places greatestPlaces : ℕ)⟩ := by
  rw [fixedDecimal] at h
  split at h
  · cases h
  · dsimp only at h
    split at h
    · cases h
    · cases h
      rfl

section formats

variable {x : Float} {d : Dyadic} {t : Text} {n : ℤ} (hx : Dyadic.ofFloat? x = some d)

theorem isShortWhole_of_mantissa (hm : d.mantissa = 0) : isShortWhole d = true := by
  have hnum : d.magnitude.num = 0 := by
    rw [Ratio.num_eq_zero_iff, Dyadic.toRat_magnitude, hm, Nat.cast_zero, zero_mul]
  have hpos := tenPow_pos 16
  simp [isShortWhole, Dyadic.isWhole, Dyadic.truncate, Ratio.floor, hnum, hpos]

theorem mantissa_eq_zero_of_truncate (hwhole : d.isWhole = true) (h : d.truncate = 0) :
    d.mantissa = 0 := by
  have hfloor : d.magnitude.floor = 0 := by
    rw [Dyadic.truncate] at h
    split at h <;> omega
  have hnum : d.magnitude.num = 0 := by
    have hmod := Nat.div_add_mod d.magnitude.num d.magnitude.den
    rw [Dyadic.isWhole, beq_iff_eq] at hwhole
    rw [hwhole, ← Ratio.floor, hfloor] at hmod
    exact hmod.symm
  rw [Ratio.num_eq_zero_iff] at hnum
  by_contra hm
  exact (Dyadic.magnitude_pos_iff.2 (Nat.pos_of_ne_zero hm)).ne' hnum

include hx

/-- The standard format shows zero for zero only. -/
theorem exists_shows_standard (h : formatStandard n x = .ok t) :
    ∃ q, Shows t q ∧ (q = 0 → d.mantissa = 0) := by
  rw [formatStandard, hx] at h
  dsimp only at h
  split at h
  · rename_i hshort
    cases h
    rw [isShortWhole, Bool.and_eq_true] at hshort
    exact ⟨_, shows_wholeText _, fun hq =>
      mantissa_eq_zero_of_truncate hshort.1 (by exact_mod_cast hq)⟩
  · rename_i hlong
    obtain ⟨-, -, rfl⟩ := withDigits_eq_ok h
    have hm := Nat.pos_of_ne_zero (mt isShortWhole_of_mantissa hlong)
    exact ⟨_, shows_significantText hm _, fun hq =>
      absurd hq (Decimal.value_ne_zero (significant_coefficient_ne_zero hm _))⟩

theorem exists_of_formatFixed (h : formatFixed n x = .ok t) :
    ∃ c, fixedDecimal d.shortest n.toNat = .ok c ∧ c.positional = t := by
  rw [formatFixed, hx] at h
  split at h
  · cases h
  · cases hc : fixedDecimal d.shortest n.toNat with
    | error fault =>
        simp only [hc] at h
        cases h
    | ok c =>
        simp only [hc] at h
        cases h
        exact ⟨c, rfl, rfl⟩

theorem exists_shows_fixed (h : formatFixed n x = .ok t) : ∃ q, Shows t q := by
  obtain ⟨c, hc, rfl⟩ := exists_of_formatFixed hx h
  obtain ⟨m, htext, -, -, hsign⟩ := exists_text_of_fixed d.shortest.negative
    (d.shortest.toPlaces (min n.toNat greatestPlaces)).coefficient (min n.toNat greatestPlaces)
  rw [eq_of_fixedDecimal hc]
  exact ⟨m.value, htext ▸ PlainNumeral.shows hsign⟩

omit hx in
/-- The mantissa that is shown, carried or not. -/
theorem exists_shownMantissa {y : Float} {a : Dyadic} {count : ℕ} (hy : Dyadic.ofFloat? y = some a)
    (hlow : 1 / 10 ≤ a.magnitude.toRat) (hhigh : a.magnitude.toRat ≤ 1001) :
    ∃ b, Dyadic.ofFloat? (shownMantissa y count) = some b ∧
      1 / 10 ≤ b.magnitude.toRat ∧ b.magnitude.toRat ≤ 1001 := by
  have hm := Dyadic.magnitude_pos_iff.1 (lt_of_lt_of_le (by norm_num) hlow)
  have hnum := (a.magnitude_num_pos hm).ne'
  have hcount := effectiveCount_pos count
  rw [shownMantissa]
  split
  · rename_i hcarry
    have hle := (roundsToThousand_iff hy hm hlow (hhigh.trans (by norm_num))).1 hcarry
    have hthousand : (1000 : ℚ) = 10 ^ (3 : ℤ) := by norm_num
    rw [hthousand, ← not_lt, Ratio.rounded_lt_iff hnum hcount, not_lt, ← hthousand] at hle
    obtain ⟨b, hb, hblow, hbhigh, -⟩ := div_thousand_spec hy hcount hle hhigh
    exact ⟨b, hb, by linarith, by linarith⟩
  · exact ⟨a, hy, hlow, hhigh⟩

theorem exists_shows_engineering {log10 : Float → Float} (hlog : IsCommonLogarithm log10)
    (h : formatEngineeringBy log10 n x = .ok t) : ∃ q, Shows t q := by
  by_cases hm : d.mantissa = 0
  · rw [formatEngineeringBy, hx] at h
    dsimp only at h
    rw [if_pos hm] at h
    cases h
    exact ⟨0, by exact_mod_cast shows_wholeText 0⟩
  · have hm := Nat.pos_of_ne_zero hm
    have hn : 0 ≤ n := by
      rw [formatEngineeringBy, hx] at h
      dsimp only at h
      rw [if_neg hm.ne'] at h
      exact (withDigits_eq_ok h).1
    rw [formatEngineeringBy_eq hx hm hn] at h
    split at h
    · cases h
    · cases h
      obtain ⟨a, ha, -, hlow, hhigh⟩ := movePoint_spec hlog hx hm
      obtain ⟨b, hb, hblow, hbhigh⟩ := @exists_shownMantissa _ _ n.toNat ha
        (le_trans (by norm_num) hlow) (hhigh.trans (by norm_num))
      have hbm := Dyadic.magnitude_pos_iff.1 (lt_of_lt_of_le (by norm_num) hblow)
      rw [significantText, hb]
      exact ⟨_, shows_trimmed hbm _ hblow hbhigh _⟩

theorem exists_shows_fraction {mixed : Bool} (h : formatFraction n mixed x = .ok t) :
    ∃ q, Shows t q := by
  have hn : 1 ≤ n := by
    rw [formatFraction, hx] at h
    dsimp only at h
    split at h
    · cases h
    · omega
  obtain ⟨p, q, hbest, hformat⟩ := exists_isBest_shown hx hn
  rw [hformat mixed] at h
  cases h
  by_cases hq : q = 1
  · rw [fractionText, if_pos hq]
    exact ⟨p, shows_wholeText p⟩
  · obtain ⟨f, htext, hvalue, hnegative, -⟩ :=
      exists_shownFraction mixed hbest.den_pos hbest.coprime
    have hbar : '/' ∈ f.text := by
      rw [htext, fractionText, if_neg hq]
      split <;> simp
    rw [← htext]
    refine ⟨f.value, shownNumber?_fraction hbar, ?_⟩
    rw [f.sign_text.1, hnegative, decide_eq_true_eq, hvalue,
      div_lt_iff₀ (Nat.cast_pos.2 hbest.den_pos), zero_mul, Int.cast_lt_zero]

/-- The sexagesimal format takes the sign of the value, also where zero is shown.  That is so below
half a hundredth of a second. -/
theorem exists_shows_sexagesimal (h : formatSexagesimal x = .ok t) :
    ∃ q, shownNumber? t = some q ∧ (t.head? = some '-' ↔ q < 0 ∨ q = 0 ∧ x < 0) ∧
      ((x.abs * 3600).isFinite = true → (q = 0 ↔ x.abs * 3600 < 0.005)) := by
  by_cases hfinite : (x.abs * 3600).isFinite = true
  · obtain ⟨f, hf, hnegative, hs0, -, -, -, hzero⟩ := exists_sexagesimal hx hfinite
    rw [hf] at h
    cases h
    have hsize : 0 ≤ f.size := by
      rw [Sexagesimal.size]
      positivity
    have hvalue : f.value = 0 ↔ f.size = 0 := by
      rw [← abs_eq_zero, Sexagesimal.value, abs_signed, abs_eq_zero]
    refine ⟨f.value, shownNumber?_sexagesimal f, ?_, fun _ => hvalue.trans hzero⟩
    rw [f.head?_text, hvalue, Sexagesimal.value, signed_neg_iff _ hsize,
      ← decide_eq_true_iff (p := x < 0), ← hnegative]
    tauto
  · have hnone : Dyadic.ofFloat? (x.abs * 3600) = none := by
      rw [← Option.not_isSome_iff_eq_none, Dyadic.isSome_ofFloat?]
      exact hfinite
    have htotal : roundToCents (x.abs * 3600) = x.abs * 3600 := by rw [roundToCents, hnone]
    rw [formatSexagesimal] at h
    dsimp only at h
    rw [htotal, Bool.eq_false_iff.2 hfinite] at h
    obtain ⟨q, hq, hzero⟩ := exists_shows_standard hx h
    refine ⟨q, hq.1, ?_, fun h => absurd h hfinite⟩
    have hq0 : q ≠ 0 := by
      intro h0
      have habs : Holds x.abs 0 := by
        refine ⟨_, Dyadic.ofFloat?_abs hx, rfl, ?_⟩
        rw [Dyadic.toRat_magnitude, hzero h0, Nat.cast_zero, zero_mul]
      refine hfinite (habs.mul holds_degree ?_).isFinite
      rw [zero_mul, nearestTo_eq isRepresentable_zero]
      exact zpow_pos two_pos _
    rw [hq.2]
    simp [hq0]

end formats

/-- A minus stands in front of a text exactly when the number shown is below zero, in every format
and with all settings, but for the sexagesimal format, where it also stands in front of a zero when
the value is below zero.  For a value whose seconds are finite, a zero is shown when they are below
half a hundredth. -/
theorem render_minus {format : DisplayFormat} {s : Except SettingsFault Settings} {x : Float}
    {t : Text} (hx : x.isFinite = true) (h : format.render s x = .ok t) :
    ∃ q, shownNumber? t = some q ∧
      (t.head? = some '-' ↔ q < 0 ∨ format = .sexagesimal ∧ q = 0 ∧ x < 0) ∧
      (format = .sexagesimal → (x.abs * 3600).isFinite = true →
        (q = 0 ↔ x.abs * 3600 < 0.005)) := by
  obtain ⟨d, hd⟩ := Dyadic.exists_of_isFinite hx
  obtain ⟨hinf, hnan⟩ := (isFinite_iff_not_special x).1 hx
  have hspecial : specialText? x = none := by
    rw [specialText?, hnan, if_neg Bool.false_ne_true, hinf, if_neg Bool.false_ne_true]
  have hshows (hother : format ≠ .sexagesimal) (hq : ∃ q, Shows t q) : ∃ q,
      shownNumber? t = some q ∧
      (t.head? = some '-' ↔ q < 0 ∨ format = .sexagesimal ∧ q = 0 ∧ x < 0) ∧
      (format = .sexagesimal → (x.abs * 3600).isFinite = true →
        (q = 0 ↔ x.abs * 3600 < 0.005)) := by
    obtain ⟨q, hread, hsign⟩ := hq
    exact ⟨q, hread, by simp [hsign, hother], fun heq => absurd heq hother⟩
  rw [DisplayFormat.render, hspecial] at h
  cases s with
  | error fault => cases h
  | ok s =>
    change format.renderFinite s x = .ok t at h
    cases format <;> dsimp only [DisplayFormat.renderFinite] at h
    case standard =>
      obtain ⟨n, -, h⟩ := Expr.exists_of_bind_eq_ok h
      obtain ⟨q, hq, -⟩ := exists_shows_standard hd h
      exact hshows nofun ⟨q, hq⟩
    case fixed =>
      obtain ⟨n, -, h⟩ := Expr.exists_of_bind_eq_ok h
      exact hshows nofun (exists_shows_fixed hd h)
    case engineering =>
      obtain ⟨n, -, h⟩ := Expr.exists_of_bind_eq_ok h
      exact hshows nofun (exists_shows_engineering hd isCommonLogarithm_log10Double h)
    case sexagesimal =>
      obtain ⟨q, hread, hsign, hzero⟩ := exists_shows_sexagesimal hd h
      exact ⟨q, hread, by simp [hsign], fun _ => hzero⟩
    case fraction =>
      obtain ⟨n, -, h⟩ := Expr.exists_of_bind_eq_ok h
      obtain ⟨mixed, -, h⟩ := Expr.exists_of_bind_eq_ok h
      exact hshows nofun (exists_shows_fraction hd h)

/-- What rounds to zero is shown without the minus. -/
theorem render_minus_fixed : (-0.00001 : Float).isFinite = true ∧
    DisplayFormat.fixed.render (.ok Settings.defaults) (-0.00001) = .ok "0.0000".toList ∧
    ∃ q, shownNumber? "0.0000".toList = some q ∧ ¬q < 0 := by
  have hx : (-0.00001 : Float).isFinite = true := rfl
  have h : DisplayFormat.fixed.render (.ok Settings.defaults) (-0.00001) = .ok "0.0000".toList :=
    eq_ok_of_toOption (by decide +kernel)
  obtain ⟨q, hread, hsign, -⟩ := render_minus hx h
  refine ⟨hx, h, q, hread, fun hneg => ?_⟩
  exact absurd (hsign.2 (.inl hneg)) (by decide)

/-- The sexagesimal format shows a negative zero. -/
theorem render_negative_zero : (-0.000000001 : Float).isFinite = true ∧
    DisplayFormat.sexagesimal.render (.ok Settings.defaults) (-0.000000001) =
      .ok "-0°0′0″".toList ∧
    shownNumber? "-0°0′0″".toList = some 0 := by
  refine ⟨rfl, eq_ok_of_toOption (by decide +kernel), ?_⟩
  let f : Sexagesimal := ⟨true, 0, 0, wholeNumeral 0⟩
  have htext : "-0°0′0″".toList = f.text := by decide
  have hvalue : f.value = 0 := by
    rw [Sexagesimal.value, Sexagesimal.size, value_wholeNumeral]
    norm_num
  rw [htext, shownNumber?_sexagesimal, hvalue]

end PocketCalculator
