import PocketCalculator.Format.Fraction
import PocketCalculator.Proofs.Number.BestFraction
import PocketCalculator.Proofs.Number.Recorded

/-! # The fraction format shows a best fraction

What the fraction format shows is a whole number, a fraction, or a whole number and a fraction below
one, with one sign in front (`ShownFraction`).  Its text reads back (`ShownFraction.read?_text`), and
it stands for the fraction that is shown (`exists_shownFraction`).  That fraction is a best
approximation of the exact value of the double, mixed or not: `formatFraction_isBest`. -/

namespace PocketCalculator

open Reading (digitsValue)
open Decimal (digits digits_ne_nil isAsciiDigit_of_mem_digits digitsValue_digits signText)

/-! ### Shown fractions -/

/-- What stands behind the sign.  Fractions are in lowest terms and are not whole, and beside a whole
part they are below one. -/
inductive FractionBody where
  | whole (n : Nat)
  | simple (num den : Nat) (one_lt : 1 < den) (coprime : num.Coprime den)
  | mixed (whole num den : Nat) (whole_pos : 0 < whole) (num_pos : 0 < num) (num_lt : num < den)
      (coprime : num.Coprime den)

namespace FractionBody

def text : FractionBody → Text
  | whole n => digits n
  | simple num den _ _ => digits num ++ '/' :: digits den
  | mixed n num den _ _ _ _ => digits n ++ ' ' :: digits num ++ '/' :: digits den

def value : FractionBody → ℚ
  | whole n => n
  | simple num den _ _ => num / den
  | mixed n num den _ _ _ _ => n + num / den

def isMixed : FractionBody → Bool
  | mixed _ _ _ _ _ _ _ => true
  | _ => false

/-- The whole number that a run of digits writes. -/
def natural? (t : Text) : Option Nat :=
  if t ≠ [] ∧ t.all isAsciiDigit then some (digitsValue t) else none

/-- A fraction in lowest terms that is not whole. -/
def simple? (num den : Nat) : Option FractionBody :=
  if h : 1 < den ∧ num.Coprime den then some (simple num den h.1 h.2) else none

/-- A whole number and a fraction in lowest terms below one. -/
def mixed? (n num den : Nat) : Option FractionBody :=
  if h : 0 < n ∧ 0 < num ∧ num < den ∧ num.Coprime den then
    some (mixed n num den h.1 h.2.1 h.2.2.1 h.2.2.2)
  else none

/-- Reads a whole number, a fraction, or a whole number and a fraction with a blank between them. -/
def read? (t : Text) : Option FractionBody := do
  let first ← natural? (t.takeWhile isAsciiDigit)
  match t.dropWhile isAsciiDigit with
  | [] => return whole first
  | '/' :: den => simple? first (← natural? den)
  | ' ' :: rest =>
    let num ← natural? (rest.takeWhile isAsciiDigit)
    match rest.dropWhile isAsciiDigit with
    | '/' :: den => mixed? first num (← natural? den)
    | _ => none
  | _ => none

theorem natural?_digits (n : Nat) : natural? (digits n) = some n := by
  have hall : (digits n).all isAsciiDigit = true :=
    List.all_eq_true.2 fun c hc => isAsciiDigit_of_mem_digits hc
  rw [natural?, if_pos ⟨digits_ne_nil n, hall⟩, digitsValue_digits]

theorem takeWhile_digits (n : Nat) {c : Char} (hc : isAsciiDigit c = false) (rest : Text) :
    (digits n ++ c :: rest).takeWhile isAsciiDigit = digits n ∧
      (digits n ++ c :: rest).dropWhile isAsciiDigit = c :: rest :=
  Text.takeWhile_append (fun _ h => isAsciiDigit_of_mem_digits h) (by simpa using hc)

/-- The text of a body reads back. -/
theorem read?_text (b : FractionBody) : read? b.text = some b := by
  cases b with
  | whole n =>
      obtain ⟨htake, hdrop⟩ := @Text.takeWhile_append isAsciiDigit (digits n) []
        (fun _ h => isAsciiDigit_of_mem_digits h) (by simp)
      rw [List.append_nil] at htake hdrop
      simp [read?, text, htake, hdrop, natural?_digits]
  | simple num den hden hcop =>
      obtain ⟨htake, hdrop⟩ := @takeWhile_digits num '/' (by decide) (digits den)
      have hsimple : simple? num den = some (simple num den hden hcop) := dif_pos ⟨hden, hcop⟩
      simp [read?, text, htake, hdrop, natural?_digits, hsimple]
  | mixed n num den hn hnum hlt hcop =>
      obtain ⟨htake, hdrop⟩ := @takeWhile_digits n ' ' (by decide) (digits num ++ '/' :: digits den)
      obtain ⟨htake', hdrop'⟩ := @takeWhile_digits num '/' (by decide) (digits den)
      have hmixed : mixed? n num den = some (mixed n num den hn hnum hlt hcop) :=
        dif_pos ⟨hn, hnum, hlt, hcop⟩
      simp [read?, text, htake, hdrop, htake', hdrop', natural?_digits, hmixed]

theorem minus_not_mem_text (b : FractionBody) : '-' ∉ b.text := by
  have hdigits (n : Nat) : '-' ∉ digits n :=
    fun h => absurd (isAsciiDigit_of_mem_digits h) (by decide)
  cases b <;> simp [text, hdigits]

end FractionBody

/-- A shown fraction: one sign in front, which only a number below zero has. -/
structure ShownFraction where
  negative : Bool
  body : FractionBody

namespace ShownFraction

def text (f : ShownFraction) : Text :=
  signText f.negative ++ f.body.text

def value (f : ShownFraction) : ℚ :=
  signed f.negative f.body.value

/-- Reads a sign and a body. -/
def read? : Text → Option ShownFraction
  | '-' :: t => (FractionBody.read? t).map (⟨true, ·⟩)
  | t => (FractionBody.read? t).map (⟨false, ·⟩)

theorem read?_text (f : ShownFraction) : read? f.text = some f := by
  obtain ⟨negative, body⟩ := f
  have hbody := body.read?_text
  cases negative with
  | true => simp [text, signText, read?, hbody]
  | false =>
      have hne : ∀ t, body.text ≠ '-' :: t := fun t h =>
        body.minus_not_mem_text (h ▸ List.mem_cons_self)
      rw [text, signText, if_neg Bool.false_ne_true, List.nil_append, read?, hbody]
      · rfl
      · exact hne

theorem sign_text (f : ShownFraction) :
    (f.text.head? = some '-' ↔ f.negative = true) ∧ '-' ∉ f.text.tail := by
  have hbody := f.body.minus_not_mem_text
  rw [text]
  cases f.negative with
  | true => exact ⟨iff_of_true rfl rfl, hbody⟩
  | false =>
      refine ⟨iff_of_false (fun h => ?_) Bool.false_ne_true, fun h => hbody (List.mem_of_mem_tail h)⟩
      exact hbody (List.mem_of_mem_head? h)

end ShownFraction

/-! ### Fractions and their texts -/

/-- The text of a fraction in lowest terms is that of a shown fraction, which stands for it.  It is
mixed when that is wanted and the fraction is above one and not whole. -/
theorem exists_shownFraction (mixed : Bool) {p : ℤ} {q : Nat} (hq : 0 < q)
    (hcop : p.natAbs.Coprime q) : ∃ f : ShownFraction, f.text = fractionText mixed p q ∧
      f.value = p / q ∧ f.negative = decide (p < 0) ∧
      (f.body.isMixed = true ↔ mixed = true ∧ q ≠ 1 ∧ q < p.natAbs) := by
  have hvalue : (p : ℚ) / q = signed (decide (p < 0)) (p.natAbs / q) := by
    rw [signed_div, ← cast_eq_signed]
  rw [hvalue, fractionText]
  split
  · rename_i hone
    subst hone
    exact ⟨⟨decide (p < 0), .whole p.natAbs⟩, rfl, by simp [ShownFraction.value, FractionBody.value],
      rfl, by simp [FractionBody.isMixed]⟩
  · rename_i hone
    have hlt : 1 < q := by omega
    split
    · rename_i hmixed
      rw [Bool.and_eq_true, decide_eq_true_eq] at hmixed
      obtain ⟨hmixed, hgt⟩ := hmixed
      have hrest : (p.natAbs % q).Coprime q := by
        rwa [Nat.Coprime, ← Nat.gcd_rec, Nat.gcd_comm]
      have hpos : 0 < p.natAbs % q := by
        refine Nat.pos_of_ne_zero fun h => ?_
        rw [h, Nat.coprime_zero_left] at hrest
        exact hone hrest
      refine ⟨⟨decide (p < 0), .mixed (p.natAbs / q) (p.natAbs % q) q
        (Nat.div_pos hgt.le hq) hpos (Nat.mod_lt _ hq) hrest⟩, ?_, ?_, rfl, ?_⟩
      · simp [ShownFraction.text, FractionBody.text]
      · rw [ShownFraction.value, FractionBody.value]
        congr 1
        rw [eq_div_iff (by positivity), add_mul, div_mul_cancel₀ _ (by positivity)]
        exact_mod_cast Nat.div_add_mod' _ _
      · simp [FractionBody.isMixed, hmixed, hone, hgt]
    · rename_i hmixed
      refine ⟨⟨decide (p < 0), .simple p.natAbs q hlt hcop⟩, ?_, rfl, rfl, ?_⟩
      · simp [ShownFraction.text, FractionBody.text, wholeText]
      · simpa [FractionBody.isMixed, hone] using hmixed

/-! ### What is shown -/

theorem exists_isBest_shown {x : Float} {d : Dyadic} (hd : Dyadic.ofFloat? x = some d) {bound : ℤ}
    (hbound : 1 ≤ bound) : ∃ p q, BestFraction.IsBest bound.toNat d.value p q ∧
      ∀ mixed, formatFraction bound mixed x = .ok (fractionText mixed p q) := by
  have hbest := BestFraction.closest_isBest (signedWhole d.negative d.magnitude.num)
    (by omega : 1 ≤ bound.toNat) d.magnitude.den_pos
  have hvalue : (signedWhole d.negative d.magnitude.num : ℚ) / d.magnitude.den = d.value := by
    rw [cast_signedWhole, ← signed_div]
    rfl
  rw [hvalue] at hbest
  refine ⟨_, _, hbest, fun mixed => ?_⟩
  rw [formatFraction, hd]
  dsimp only
  rw [if_neg (by omega)]
  rfl

/-- The fraction shown with denominators of at most `bound`, mixed or not, is one of the fractions
closest to the exact value of a finite double. -/
theorem formatFraction_isBest {x : Float} (hx : x.isFinite = true) {bound : ℤ} (hbound : 1 ≤ bound) :
    ∃ d, Dyadic.ofFloat? x = some d ∧ ∃ q : ℚ, q.den ≤ bound ∧
      (∀ r : ℚ, r.den ≤ bound → |q - d.value| ≤ |r - d.value|) ∧
      ∀ mixed, ∃ t f, formatFraction bound mixed x = .ok t ∧ ShownFraction.read? t = some f ∧
        f.value = q ∧ (f.body.isMixed = true ↔ mixed = true ∧ q.den ≠ 1 ∧ 1 < |q|) ∧
        (t.head? = some '-' ↔ q < 0) ∧ '-' ∉ t.tail := by
  obtain ⟨d, hd⟩ := Dyadic.exists_of_isFinite hx
  obtain ⟨p, q, hbest, hformat⟩ := exists_isBest_shown hd hbound
  have hden := hbest.den_div
  have hden_le := hbest.den_le
  have hq : (0 : ℚ) < q := Nat.cast_pos.2 hbest.den_pos
  refine ⟨d, hd, p / q, by omega, fun r hr => hbest.abs_sub_le r (by omega), fun mixed => ?_⟩
  obtain ⟨f, htext, hvalue, hnegative, hmixed⟩ :=
    exists_shownFraction mixed hbest.den_pos hbest.coprime
  obtain ⟨hhead, htail⟩ := f.sign_text
  refine ⟨f.text, f, htext ▸ hformat mixed, f.read?_text, hvalue, ?_, ?_, htail⟩
  · have hone : 1 < |(p : ℚ) / q| ↔ q < p.natAbs := by
      rw [abs_div, Nat.abs_cast, one_lt_div hq, ← Int.cast_abs, ← Nat.cast_natAbs, Nat.cast_lt]
    rw [hmixed, hden, hone]
  · rw [hhead, hnegative, decide_eq_true_eq, div_lt_iff₀ hq, zero_mul, Int.cast_lt_zero]

/-- Below zero the sign is in front of the whole part. -/
theorem formatFraction_isBest_mixed : (-3.25 : Float).isFinite = true ∧ (1 : ℤ) ≤ 100 ∧
    ∃ d, Dyadic.ofFloat? (-3.25) = some d ∧ ∃ q : ℚ, q.den ≤ (100 : ℤ) ∧
      (∀ r : ℚ, r.den ≤ (100 : ℤ) → |q - d.value| ≤ |r - d.value|) ∧
      ∃ t f, formatFraction 100 true (-3.25) = .ok t ∧ ShownFraction.read? t = some f ∧
        f.value = q ∧ (t.head? = some '-' ↔ q < 0) := by
  have hx : (-3.25 : Float).isFinite = true := by decide
  obtain ⟨d, hd, q, hden, hbest, hshown⟩ :=
    formatFraction_isBest hx (by decide : (1 : ℤ) ≤ 100)
  obtain ⟨t, f, ht, hf, hvalue, -, hsign, -⟩ := hshown true
  exact ⟨hx, by decide, d, hd, q, hden, hbest, t, f, ht, hf, hvalue, hsign⟩

end PocketCalculator
