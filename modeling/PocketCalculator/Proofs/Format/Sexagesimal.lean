import PocketCalculator.Proofs.Evaluation.Reading
import PocketCalculator.Proofs.Format.Degrees
import PocketCalculator.Proofs.Format.SignedText
import PocketCalculator.Proofs.Number.Cents

/-! # The fields of the sexagesimal format

The seconds of a value are rounded to hundredths, the degrees are taken off, and then the minutes
from what is left.  Both are taken off exactly (`exists_sexagesimalFields`), so the text is that of
`Sexagesimal` fields (`exists_sexagesimal`): the seconds are below 60 also after their own rounding,
and they are all zero for less than half a hundredth of a second only.

The minutes are below 60 as far as less than a degree is left over the degrees, which is not so from
`2 ^ 62` to `2 ^ 65` seconds: `formatSexagesimal_fields`. -/

namespace PocketCalculator

open Decimal (digits signText)
open FractionBody (natural? natural?_digits takeWhile_digits)

/-! ### Sexagesimal texts -/

/-- A sign, whole degrees, whole minutes, and seconds. -/
structure Sexagesimal where
  negative : Bool
  degrees : ℕ
  minutes : ℕ
  seconds : PlainNumeral

namespace Sexagesimal

def text (f : Sexagesimal) : Text :=
  signText f.negative ++ digits f.degrees ++ '°' :: digits f.minutes ++
    '′' :: f.seconds.text ++ ['″']

/-- The size of the angle in degrees. -/
def size (f : Sexagesimal) : ℚ :=
  f.degrees + f.minutes / 60 + f.seconds.value / 3600

/-- Degrees, minutes and seconds with their marks. -/
def unsigned? (negative : Bool) (t : Text) : Option Sexagesimal := do
  let degrees ← natural? (t.takeWhile isAsciiDigit)
  match t.dropWhile isAsciiDigit with
  | '°' :: t =>
    let minutes ← natural? (t.takeWhile isAsciiDigit)
    match t.dropWhile isAsciiDigit with
    | '′' :: t =>
      if t.getLast? = some '″' then
        let seconds ← PlainNumeral.read? t.dropLast
        return ⟨negative, degrees, minutes, seconds⟩
      else none
    | _ => none
  | _ => none

/-- Reads a sign and the fields. -/
def read? (t : Text) : Option Sexagesimal :=
  readSigned? unsigned? t

theorem text_eq (f : Sexagesimal) : f.text = signText f.negative ++ (digits f.degrees ++
    '°' :: (digits f.minutes ++ '′' :: (f.seconds.text ++ ['″']))) := by
  simp [text]

/-- The text of sexagesimal fields reads back. -/
theorem read?_text (f : Sexagesimal) : read? f.text = some f := by
  obtain ⟨htake, hdrop⟩ := @takeWhile_digits f.degrees '°' (by decide)
    (digits f.minutes ++ '′' :: (f.seconds.text ++ ['″']))
  obtain ⟨htake', hdrop'⟩ := @takeWhile_digits f.minutes '′' (by decide) (f.seconds.text ++ ['″'])
  rw [text_eq, read?, readSigned?_signText _ (head?_digits_append _ _)]
  simp [unsigned?, htake, hdrop, htake', hdrop', natural?_digits, PlainNumeral.read?_text]

theorem head?_text (f : Sexagesimal) : f.text.head? = some '-' ↔ f.negative = true := by
  rw [text_eq]
  exact head?_signText _ (head?_digits_append _ _)

end Sexagesimal

/-! ### Whole numbers taken off -/

variable {x : Float} {t : ℚ}

theorem Holds.truncateFloat {n : ℕ} (hx : Holds x n) : truncateFloat x = n := by
  obtain ⟨d, hd, hneg, hn⟩ := hx
  rw [PocketCalculator.truncateFloat, hd, Option.map_some, Option.getD_some, Dyadic.truncate, hneg,
    Ratio.floor_eq, hn, Nat.floor_natCast]
  rfl

theorem Holds.minusWhole (hx : Holds x t) {n : ℕ} (h : nearestTo n ≤ t) :
    ∃ y, minusWhole x n = .ok y ∧ Holds y (nearestTo (t - nearestTo n)) := by
  have hn : Holds (nearestToInt n) (nearestTo n) := holds_nearestToInt (h.trans_lt hx.lt_infinity)
  refine ⟨x - nearestToInt n, ?_, hx.sub hn h⟩
  exact if_neg (by rw [((isFinite_iff_not_special _).1 hn.isFinite).1]; exact Bool.false_ne_true)

theorem exists_natCast_nearestTo (n : ℕ) : ∃ m : ℕ, nearestTo n = m := by
  rcases le_or_gt n (2 ^ 53) with hle | hgt
  · exact ⟨n, nearestTo_eq (isRepresentable_natCast hle)⟩
  · obtain h | hlt := (isRepresentable_nearestTo n).exists_natCast_or_lt
    · exact h
    · have := le_nearestTo (isRepresentable_natCast le_rfl) (a := n) (by exact_mod_cast hgt.le)
      push_cast at this
      exact absurd hlt (not_lt.2 this)

/-- A whole number that leaves less than `2 ^ 14` is taken off exactly. -/
theorem IsRepresentable.sub_of_lt_add (ht : IsRepresentable t) {m : ℕ} (hm : IsRepresentable m)
    (hle : m ≤ t) (hlt : t < m + 2 ^ 14) : IsRepresentable (t - m) := by
  rcases lt_or_ge t (2 ^ 15) with h | h
  · exact ht.sub_natCast (by linarith) hle
  · exact ht.sub hm hle (by linarith)

/-! ### The fields -/

theorem holds_degree : Holds 3600 3600 :=
  @holds_of_ofFloat? _ (3600 * 2 ^ 41) (-41) _ rfl (by norm_num)

theorem holds_minute : Holds 60 60 :=
  @holds_of_ofFloat? _ (60 * 2 ^ 47) (-47) _ rfl (by norm_num)

/-- Whole units are taken off exactly where less than `2 ^ 14` is left: `m` is what they make up as
a double. -/
theorem takeOff_wholeUnits {unit : Float} {u m : ℕ} (hx : Holds x t) (hunit : Holds unit u)
    (hu : (1 : ℚ) ≤ u) (hm : nearestTo (floorQuotient t u * u) = m) (hle : m ≤ t)
    (hlt : t < m + 2 ^ 14) : truncateFloat (floorDivide x unit) = floorQuotient t u ∧
      ∃ y, minusWhole x (floorQuotient t u * u) = .ok y ∧ Holds y (t - m) := by
  refine ⟨(hx.floorDivide hunit hu).truncateFloat, ?_⟩
  generalize floorQuotient t u = k at hm
  have hcast : nearestTo ((k * u : ℕ) : ℚ) = m := by rw [Nat.cast_mul, hm]
  have hrest := hx.isRepresentable.sub_of_lt_add (hcast ▸ isRepresentable_nearestTo _) hle hlt
  obtain ⟨y, hy, hyrest⟩ := hx.minusWhole (n := k * u) (by rwa [hcast])
  rw [hcast, nearestTo_eq hrest] at hyrest
  rw [Nat.cast_mul] at hy
  exact ⟨y, hy, hyrest⟩

/-- Degrees and minutes are taken off exactly: `m` are the seconds of the degrees as a double. -/
theorem exists_sexagesimalFields (hx : Holds x t) {m : ℕ}
    (hm : nearestTo (floorQuotient t 3600 * 3600) = m) (hle : m ≤ t) (hlt : t < m + 2 ^ 14) :
    ∃ y, sexagesimalFields x = .ok (floorQuotient t 3600, ⌊(t - m) / 60⌋₊, y) ∧
      Holds y (t - m - ⌊(t - m) / 60⌋₊ * 60) := by
  obtain ⟨hdegrees, y, hy, hyrest⟩ :=
    takeOff_wholeUnits (u := 3600) hx holds_degree (by norm_num) hm hle hlt
  have hr0 : 0 ≤ t - m := sub_nonneg.2 hle
  have hr : t - m < 2 ^ 14 := by linarith
  generalize t - m = r at hr0 hr hyrest ⊢
  obtain ⟨hlow, hhigh⟩ := floor_div_bounds hr0 (by norm_num : (0 : ℚ) < 60)
  have hquotient : floorQuotient r 60 = ⌊r / 60⌋₊ := by
    exact_mod_cast floorQuotient_natCast (n := 60) (by norm_num) hr0 (by linarith)
  rw [← hquotient] at hlow hhigh ⊢
  have hwhole : floorQuotient r 60 * 60 ≤ 2 ^ 53 := by
    exact_mod_cast (by linarith : (floorQuotient r 60 : ℚ) * 60 ≤ 2 ^ 53)
  have hm' : nearestTo (floorQuotient r 60 * 60) = (floorQuotient r 60 * 60 : ℕ) := by
    exact_mod_cast nearestTo_eq (isRepresentable_natCast hwhole)
  obtain ⟨hminutes, z, hz, hzrest⟩ :=
    takeOff_wholeUnits (u := 60) hyrest holds_minute (by norm_num) hm' (by exact_mod_cast hlow)
      (by push_cast; linarith)
  refine ⟨z, ?_, by exact_mod_cast hzrest⟩
  push_cast at hdegrees hy hminutes hz
  rw [sexagesimalFields, hdegrees, hy]
  change (do return ((floorQuotient t 3600 : ℤ), _, ← minusWhole y _)) = _
  rw [hminutes, hz]
  rfl

theorem floorQuotient_zero : floorQuotient 0 3600 = 0 := by
  have h := @floorQuotient_natCast 0 3600 (by norm_num) le_rfl (by norm_num)
  push_cast at h
  rw [h, zero_div, Nat.floor_zero]

/-- The fields of hundredths of seconds: the seconds stay below a minute when they are rounded
again, and the fields are all zero only when there are no hundredths. -/
theorem exists_fields_of_hundredths {c m : ℕ} (hx : Holds x (nearestTo (c / 100)))
    (hm : nearestTo (floorQuotient (nearestTo (c / 100)) 3600 * 3600) = m)
    (hle : m ≤ nearestTo (c / 100)) (hlt : nearestTo (c / 100) < m + 2 ^ 14) :
    ∃ (degrees minutes : ℕ) (y : Float) (s : PlainNumeral),
      sexagesimalFields x = .ok (degrees, minutes, y) ∧ s.text = centsText y ∧
      0 ≤ s.value ∧ s.value < 60 ∧ minutes < 274 ∧
      (nearestTo (c / 100) < m + 3600 → minutes < 60) ∧
      (degrees = 0 ∧ minutes = 0 ∧ s.value = 0 ↔ c = 0) := by
  obtain ⟨y, hfields, hy⟩ := exists_sexagesimalFields hx hm hle hlt
  obtain ⟨hlow, hhigh⟩ := floor_div_bounds (sub_nonneg.2 hle) (by norm_num : (0 : ℚ) < 60)
  have hless := @hundredths_lt c (m + 60 * ⌊(nearestTo (c / 100) - m) / 60⌋₊)
  push_cast at hless
  have hless := hless (by linarith) (by linarith)
  obtain ⟨s, htext, hs0, hs60, hzero, hpos⟩ := exists_secondsText hy (by linarith)
  refine ⟨_, _, y, s, hfields, htext, hs0, hs60, ?_, fun h => ?_, ?_, ?_⟩
  · exact_mod_cast (by linarith : (⌊(nearestTo (c / 100) - m) / 60⌋₊ : ℚ) < 274)
  · exact_mod_cast (by linarith : (⌊(nearestTo (c / 100) - m) / 60⌋₊ : ℚ) < 60)
  · rintro ⟨hdegrees, hminutes, hseconds⟩
    rw [hdegrees, Nat.cast_zero, zero_mul, nearestTo_eq isRepresentable_zero] at hm
    by_contra hc
    refine hpos ?_ hseconds
    rw [hminutes, ← hm, sub_zero, Nat.cast_zero, zero_mul, sub_zero]
    exact lt_nearestTo_hundredths hc
  · rintro rfl
    have htotal : nearestTo ((0 : ℕ) / 100) = 0 := by
      rw [Nat.cast_zero, zero_div, nearestTo_eq isRepresentable_zero]
    rw [htotal] at hle hzero ⊢
    have hm0 : (m : ℚ) = 0 := le_antisymm hle (Nat.cast_nonneg m)
    rw [hm0, sub_zero, zero_div, Nat.floor_zero] at hzero ⊢
    exact ⟨floorQuotient_zero, rfl, hzero (by norm_num)⟩

/-! ### The text -/

theorem holds_two_pow_62 : Holds 4611686018427387904 (2 ^ 62) :=
  @holds_of_ofFloat? _ (2 ^ 52) 10 _ rfl (by norm_num)

theorem holds_two_pow_65 : Holds 36893488147419103232 (2 ^ 65) :=
  @holds_of_ofFloat? _ (2 ^ 52) 13 _ rfl (by norm_num)

theorem holds_half_hundredth : Holds 0.005 (5764607523034235 * 2 ^ (-60 : ℤ)) :=
  @holds_of_ofFloat? _ 5764607523034235 (-60) _ rfl (by norm_num)

/-- The double nearest to half a hundredth is above it, so what is below that double is rounded to
zero. -/
theorem lt_half_hundredth_iff {c : ℕ} (hx : Holds x t) (hc : |(c : ℚ) - 100 * t| ≤ 1 / 2) :
    x < 0.005 ↔ c = 0 := by
  obtain ⟨hlow, hhigh⟩ := abs_le.1 hc
  rw [hx.lt_iff holds_half_hundredth]
  constructor
  · intro hlt
    have hle := hx.isRepresentable.le_of_lt_mul (t := 5764607523034235) (by norm_num)
      (by exact_mod_cast hlt)
    norm_num at hle
    have : c < 1 := by exact_mod_cast (by linarith : (c : ℚ) < 1)
    omega
  · rintro rfl
    norm_num at hlow ⊢
    linarith

namespace Sexagesimal

theorem size_eq_zero_iff {f : Sexagesimal} (h : 0 ≤ f.seconds.value) :
    f.size = 0 ↔ f.degrees = 0 ∧ f.minutes = 0 ∧ f.seconds.value = 0 := by
  rw [size, add_eq_zero_iff_of_nonneg (by positivity) (by positivity),
    add_eq_zero_iff_of_nonneg (by positivity) (by positivity), and_assoc]
  norm_num

end Sexagesimal

/-- What is shown for a value whose seconds are finite. -/
theorem exists_sexagesimal {d : Dyadic} (hx : Dyadic.ofFloat? x = some d)
    (h : (x.abs * 3600).isFinite = true) : ∃ f : Sexagesimal, formatSexagesimal x = .ok f.text ∧
      f.negative = decide (x < 0) ∧ 0 ≤ f.seconds.value ∧ f.seconds.value < 60 ∧
      f.minutes < 274 ∧
      (x.abs * 3600 < 4611686018427387904 ∨ 36893488147419103232 ≤ x.abs * 3600 →
        f.minutes < 60) ∧
      (f.size = 0 ↔ x.abs * 3600 < 0.005) := by
  have habs : Holds x.abs d.magnitude.toRat := ⟨_, Dyadic.ofFloat?_abs hx, rfl, rfl⟩
  have hproduct := habs.mul_of_isFinite holds_degree h
  obtain ⟨c, hc, htotal⟩ := hproduct.roundToCents
  have hnearest := nearestTo_hundredths hproduct.isRepresentable hc
  obtain ⟨m, hm⟩ := exists_natCast_nearestTo (floorQuotient (nearestTo (c / 100)) 3600 * 3600)
  push_cast at hm
  have hdegrees := degrees_spec htotal habs.isRepresentable fun hlarge => by
    obtain heq | ⟨-, hle⟩ := hnearest
    · exact heq
    · linarith
  rw [hm] at hdegrees
  obtain ⟨hle, hlt, hfar⟩ := hdegrees
  obtain ⟨degrees, minutes, y, s, hfields, htext, hs0, hs60, hminutes, hless, hzero⟩ :=
    exists_fields_of_hundredths htotal hm hle hlt
  refine ⟨⟨decide (x < 0), degrees, minutes, s⟩, ?_, rfl, hs0, hs60, hminutes, fun hsize => ?_, ?_⟩
  · rw [formatSexagesimal]
    dsimp only
    rw [htotal.isFinite, hfields]
    simp [bind, Except.bind, pure, Except.pure, Sexagesimal.text, wholeText_natCast, htext]
  · refine hless (hfar ?_)
    rw [hproduct.lt_iff holds_two_pow_62, holds_two_pow_65.le_iff hproduct] at hsize
    obtain heq | ⟨-, hle⟩ := hnearest
    · rwa [heq]
    · exact .inl (by linarith)
  · rw [lt_half_hundredth_iff hproduct hc, ← hzero]
    exact Sexagesimal.size_eq_zero_iff hs0

/-- A finite value whose seconds are finite is shown as whole degrees, whole minutes, and seconds
below 60.  The minutes are below 60, too, unless the seconds are from `2 ^ 62` to `2 ^ 65`; there
they are below 274. -/
theorem formatSexagesimal_fields (hx : x.isFinite = true) (h : (x.abs * 3600).isFinite = true) :
    ∃ t f, formatSexagesimal x = .ok t ∧ Sexagesimal.read? t = some f ∧ f.text = t ∧
      0 ≤ f.seconds.value ∧ f.seconds.value < 60 ∧ f.minutes < 274 ∧
      (x.abs * 3600 < 4611686018427387904 ∨ 36893488147419103232 ≤ x.abs * 3600 →
        f.minutes < 60) := by
  obtain ⟨d, hd⟩ := Dyadic.exists_of_isFinite hx
  obtain ⟨f, hf, -, hs0, hs60, hminutes, hless, -⟩ := exists_sexagesimal hd h
  exact ⟨f.text, f, hf, f.read?_text, rfl, hs0, hs60, hminutes, hless⟩

/-- Hundredths that round up to a minute. -/
theorem formatSexagesimal_fields_carried : (0.0166666 : Float).isFinite = true ∧
    ((0.0166666 : Float).abs * 3600).isFinite = true ∧
    (0.0166666 : Float).abs * 3600 < 4611686018427387904 ∧
    ∃ t f, formatSexagesimal 0.0166666 = .ok t ∧ Sexagesimal.read? t = some f ∧ f.text = t ∧
      0 ≤ f.seconds.value ∧ f.seconds.value < 60 ∧ f.minutes < 60 := by
  have hx : (0.0166666 : Float).isFinite = true := rfl
  have h : ((0.0166666 : Float).abs * 3600).isFinite = true := rfl
  have hsmall : (0.0166666 : Float).abs * 3600 < 4611686018427387904 := by decide
  obtain ⟨t, f, ht, hread, htext, hs0, hs60, -, hless⟩ := formatSexagesimal_fields hx h
  exact ⟨hx, h, hsmall, t, f, ht, hread, htext, hs0, hs60, hless (.inl hsmall)⟩

/-- Large doubles are so far apart that more than an hour is left over the degrees. -/
theorem formatSexagesimal_overflow : (5000000000000004 : Float).isFinite = true ∧
    ((5000000000000004 : Float).abs * 3600).isFinite = true ∧
    formatSexagesimal 5000000000000004 = .ok "5000000000000003°68′16″".toList ∧
    ¬∃ f : Sexagesimal, f.text = "5000000000000003°68′16″".toList ∧ f.minutes < 60 := by
  refine ⟨rfl, rfl, eq_ok_of_toOption (by decide +kernel), ?_⟩
  rintro ⟨f, hf, hlt⟩
  have hread : (Sexagesimal.read? "5000000000000003°68′16″".toList).map (·.minutes) = some 68 := rfl
  rw [← hf, f.read?_text, Option.map_some, Option.some.injEq] at hread
  omega

end PocketCalculator
