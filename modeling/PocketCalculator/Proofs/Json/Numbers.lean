import PocketCalculator.Json.Printer
import PocketCalculator.Json.Token
import PocketCalculator.Proofs.Number.Recorded
import PocketCalculator.Proofs.Number.Unpacked

/-! # Written numbers read back

A number is read in parts: digits that do not start with a needless zero, digits behind a point, and
an exponent.  Whole and real numbers are written in these parts (`isWhole_digits`,
`exists_parts_layout`), and where nothing follows that continues a number they are read as what was
written: `readScalar?_intText`, `readScalar?_number`.  A double is written by its shortest decimal,
which is read as the double (`Decimal.toFloat_of_value`); the sign of zero is kept. -/

namespace PocketCalculator

open Reading (digitsValue exponent?)

/-! ### Decimals of a double -/

/-- A decimal with the sign and the value of the shortest one is read as the double. -/
theorem Decimal.toFloat_of_value {x : Float} {d : Dyadic} {c : Decimal}
    (hx : Dyadic.ofFloat? x = some d) (hs : c.negative = d.negative)
    (hv : c.value = d.shortest.value) : c.toFloat = x := by
  have hsize : c.magnitude.toRat = d.shortest.magnitude.toRat := by
    have := congrArg abs hv
    rwa [value, value, abs_signed, abs_signed, abs_of_nonneg (Ratio.toRat_nonneg _),
      abs_of_nonneg (Ratio.toRat_nonneg _)] at this
  have hc := Dyadic.canonical_of_ofFloat? hx
  rcases Nat.eq_zero_or_pos d.mantissa with hm | hm
  · have hzero : c.magnitude.toRat = 0 := by
      rw [hsize, Dyadic.shortest, if_pos hm, toRat_magnitude, Nat.cast_zero, zero_mul]
    have hx' := Dyadic.floatOfMagnitude_pattern hx
    rw [hc.pattern_eq_zero hm] at hx'
    rw [toFloat_of_toRat_eq_zero hzero, hs, hx']
  · refine toFloat_of_contains hx hm hs ?_
    rw [RoundingInterval.contains_congr hsize]
    exact Dyadic.contains_shortest hc hm

namespace Json

/-! ### The parts of a number -/

/-- Nothing that continues a number stands at the beginning of a text. -/
def EndsNumber (rest : Text) : Prop :=
  ∀ c ∈ rest.head?, isPlainNumeralChar c = false ∧ c ≠ 'e' ∧ c ≠ 'E'

theorem endsNumber_nil : EndsNumber [] := by
  rintro c ⟨⟩

/-- Digits that may stand in front of a point: a zero is the only one. -/
structure IsWhole (w : Text) : Prop where
  ne_nil : w ≠ []
  isDigit : ∀ c ∈ w, isAsciiDigit c = true
  single_zero : w.head? = some '0' → w = ['0']

/-- The digits behind a point, with the point if there are any. -/
def fractionText (f : Text) : Text :=
  if f = [] then [] else '.' :: f

/-- The exponent of a scientific text. -/
def exponentText (lead : ℤ) : Text :=
  'e' :: (if lead < 0 then '-' else '+') :: Text.padLeft 2 '0' (Decimal.digits lead.natAbs)

/-- The exponent part of a number, which may be missing. -/
def exponentPart : Option ℤ → Text
  | none => []
  | some lead => exponentText lead

section reading

variable {w f rest : Text}

theorem isAsciiDigit_eq_false {t : Text} (h : ∀ c ∈ t.head?, isPlainNumeralChar c = false) :
    ∀ c ∈ t.head?, isAsciiDigit c = false := by
  intro c hc
  have hplain := h c hc
  rw [isPlainNumeralChar, Bool.or_eq_false_iff] at hplain
  exact hplain.1

theorem readDigits?_append (hne : w ≠ []) (hw : ∀ c ∈ w, isAsciiDigit c = true)
    (hrest : ∀ c ∈ rest.head?, isAsciiDigit c = false) :
    readDigits? (w ++ rest) = some (w, rest) := by
  obtain ⟨htake, hdrop⟩ := Text.takeWhile_append hw hrest
  rw [readDigits?, htake, hdrop]
  cases w with
  | nil => exact absurd rfl hne
  | cons c w => rfl

theorem readWhole?_append (h : IsWhole w) (hrest : ∀ c ∈ rest.head?, isAsciiDigit c = false) :
    readWhole? (w ++ rest) = some (w, rest) := by
  have hdigits := readDigits?_append h.ne_nil h.isDigit hrest
  by_cases hzero : w.head? = some '0'
  · rw [h.single_zero hzero]
    rfl
  · rw [readWhole?, hdigits]
    intro t ht
    obtain ⟨c, u, rfl⟩ := List.exists_cons_of_ne_nil h.ne_nil
    rw [List.cons_append, List.cons.injEq] at ht
    rw [ht.1] at hzero
    exact hzero rfl

theorem readFraction_append (hf : ∀ c ∈ f, isAsciiDigit c = true)
    (hrest : ∀ c ∈ rest.head?, isPlainNumeralChar c = false) :
    readFraction (fractionText f ++ rest) = (f, rest) := by
  rw [fractionText]
  split
  · rename_i hnil
    subst hnil
    rw [List.nil_append, readFraction]
    rintro u rfl
    exact absurd (hrest '.' rfl) (by decide)
  · rename_i hne
    rw [List.cons_append, readFraction, readDigits?_append hne hf (isAsciiDigit_eq_false hrest)]
    rfl

theorem readExponent_none (h : EndsNumber rest) : readExponent rest = (none, rest) := by
  cases rest with
  | nil => rfl
  | cons c rest =>
      obtain ⟨-, he, hE⟩ := h c rfl
      rw [readExponent, if_neg (by simp [he, hE])]

theorem readExponent_some (lead : ℤ) (h : EndsNumber rest) :
    readExponent (exponentText lead ++ rest) = (some lead, rest) := by
  have hrest := isAsciiDigit_eq_false fun c hc => (h c hc).1
  have hdigits : ∀ c ∈ Text.padLeft 2 '0' (Decimal.digits lead.natAbs), isAsciiDigit c = true :=
    fun c hc => Decimal.isAsciiDigit_of_mem_padLeft hc
  have hne : Text.padLeft 2 '0' (Decimal.digits lead.natAbs) ≠ [] := by
    have := Decimal.le_length_padLeft 2 (Decimal.digits lead.natAbs)
    exact List.ne_nil_of_length_pos (by omega)
  have hvalue := Decimal.digitsValue_padLeft_digits 2 lead.natAbs
  have hread := readDigits?_append hne hdigits hrest
  rw [exponentText, List.cons_append, List.cons_append, readExponent, if_pos (by decide)]
  by_cases hlead : lead < 0
  · rw [if_pos hlead, Reading.splitSign]
    simp only [hread, hvalue, if_true]
    congr 2
    omega
  · rw [if_neg hlead, Reading.splitSign]
    simp only [hread, hvalue, Bool.false_eq_true, if_false]
    congr 2
    omega

theorem readExponent_append (e : Option ℤ) (h : EndsNumber rest) :
    readExponent (exponentPart e ++ rest) = (e, rest) := by
  cases e with
  | none => exact readExponent_none h
  | some lead => exact readExponent_some lead h

theorem head?_exponentPart (e : Option ℤ) (h : EndsNumber rest) :
    ∀ c ∈ (exponentPart e ++ rest).head?, isPlainNumeralChar c = false := by
  cases e with
  | none => exact fun c hc => (h c hc).1
  | some lead =>
      rintro _ ⟨⟩
      decide

/-- A number is read part by part. -/
theorem readUnsigned?_parts (negative : Bool) (hw : IsWhole w)
    (hf : ∀ c ∈ f, isAsciiDigit c = true) (e : Option ℤ) (h : EndsNumber rest) :
    readUnsigned? negative (w ++ fractionText f ++ exponentPart e ++ rest) =
      some (if f = [] && e.isNone then wholeToken negative w
        else realToken negative w f (e.getD 0), rest) := by
  have htail := head?_exponentPart e h
  have hpoint : ∀ c ∈ (fractionText f ++ (exponentPart e ++ rest)).head?,
      isAsciiDigit c = false := by
    rw [fractionText]
    split
    · exact isAsciiDigit_eq_false htail
    · rintro _ ⟨⟩
      decide
  rw [List.append_assoc, List.append_assoc, readUnsigned?, readWhole?_append hw hpoint,
    Option.bind_eq_bind, Option.bind_some]
  simp only [readFraction_append hf htail, readExponent_append e h]
  split <;> rfl

theorem readScalar?_sign (negative : Bool) {c : Char} (hc : isAsciiDigit c = true) (t : Text) :
    readScalar? (Decimal.signText negative ++ c :: t) = readUnsigned? negative (c :: t) := by
  have hne {x : Char} (hx : isAsciiDigit x = false) : x ≠ c := by
    rintro rfl
    exact absurd hc (by simp [hx])
  have hn : 'n' ≠ c := hne (by decide)
  have ht : 't' ≠ c := hne (by decide)
  have hf : 'f' ≠ c := hne (by decide)
  have hN : 'N' ≠ c := hne (by decide)
  have hI : 'I' ≠ c := hne (by decide)
  have hm : '-' ≠ c := hne (by decide)
  cases negative with
  | true =>
      simp [readScalar?, wordValues, Text.after?, Decimal.signText, hI]
  | false =>
      have hminus : ∀ u, c :: t = '-' :: u → False := fun u h => hm (List.cons.inj h).1.symm
      simp [readScalar?, wordValues, Text.after?, Decimal.signText, hn, ht, hf, hN, hI, hm]

end reading

/-! ### Digits -/

theorem head?_digits {n : ℕ} (h : 0 < n) : (Decimal.digits n).head? ≠ some '0' := by
  induction n using Nat.strongRecOn with
  | ind n ih =>
      rw [Decimal.digits]
      rcases Nat.lt_or_ge n 10 with hlt | hge
      · have key : ∀ k < 10, 0 < k → k.digitChar ≠ '0' := by decide
        rw [Nat.toDigits_of_lt_base hlt, List.head?_cons]
        exact fun e => key n hlt h (Option.some.inj e)
      · rw [Nat.toDigits_of_base_le (by decide) hge,
          List.head?_append_of_ne_nil _ Nat.toDigits_ne_nil]
        exact ih (n / 10) (by omega) (by omega)

theorem isWhole_digits (n : ℕ) : IsWhole (Decimal.digits n) := by
  refine ⟨Decimal.digits_ne_nil n, fun c hc => Decimal.isAsciiDigit_of_mem_digits hc, fun h => ?_⟩
  rcases Nat.eq_zero_or_pos n with rfl | hpos
  · rfl
  · exact absurd h (head?_digits hpos)

theorem isWhole_digits_zeros {n : ℕ} (h : 0 < n) (e : ℕ) :
    IsWhole (Decimal.digits n ++ List.replicate e '0') := by
  refine ⟨List.append_ne_nil_of_left_ne_nil (Decimal.digits_ne_nil n) _,
    fun c hc => Decimal.isAsciiDigit_of_mem_digits_zeros hc, fun hzero => ?_⟩
  rw [List.head?_append_of_ne_nil _ (Decimal.digits_ne_nil n)] at hzero
  exact absurd hzero (head?_digits h)

/-- Digits that begin with a zero have not been enough for all places. -/
theorem length_padLeft_of_head? {n places : ℕ}
    (h : (Text.padLeft (places + 1) '0' (Decimal.digits n)).head? = some '0') :
    (Text.padLeft (places + 1) '0' (Decimal.digits n)).length = places + 1 := by
  rw [Text.padLeft] at h ⊢
  rcases Nat.lt_or_ge (Decimal.digits n).length (places + 1) with hlt | hge
  · rw [List.length_append, List.length_replicate]
    omega
  · -- a longer text is not filled up, and only the digit of zero begins with a zero
    rw [Nat.sub_eq_zero_of_le hge, List.replicate_zero, List.nil_append] at h ⊢
    obtain rfl : n = 0 := by
      by_contra hn
      exact head?_digits (Nat.pos_of_ne_zero hn) h
    have hlength : (Decimal.digits 0).length = 1 := rfl
    omega

theorem isWhole_wholeDigits (n places : ℕ) : IsWhole (Decimal.wholeDigits n places) := by
  refine ⟨Decimal.wholeDigits_ne_nil n places,
    fun _ hc => Decimal.isAsciiDigit_of_mem_wholeDigits hc, fun hzero => ?_⟩
  have hone : (Decimal.wholeDigits n places).length = 1 := by
    have hlen := Decimal.le_length_padLeft (places + 1) (Decimal.digits n)
    rw [Decimal.wholeDigits, List.head?_take, if_neg (by omega)] at hzero
    rw [Decimal.wholeDigits, List.length_take, length_padLeft_of_head? hzero]
    omega
  obtain ⟨c, hc⟩ := List.length_eq_one_iff.1 hone
  rw [hc] at hzero ⊢
  exact congrArg (fun c => [c]) (Option.some.inj hzero)

/-! ### Whole numbers -/

/-- A whole number is read off what follows it. -/
theorem readScalar?_intText {n : ℤ} (hn : isWritableInt n = true) {rest : Text}
    (h : EndsNumber rest) : readScalar? (intText n ++ rest) = some (.scalar (.int n), rest) := by
  obtain ⟨c, t, hct⟩ := List.exists_cons_of_ne_nil (Decimal.digits_ne_nil n.natAbs)
  have hc : isAsciiDigit c = true :=
    Decimal.isAsciiDigit_of_mem_digits (n := n.natAbs) (hct ▸ List.mem_cons_self)
  have hread := readUnsigned?_parts (f := []) (decide (n < 0)) (isWhole_digits n.natAbs)
    (fun c hc => by cases hc) none h
  have hlength : (Decimal.digits n.natAbs).length ≤ Reading.greatestWholeLength :=
    of_decide_eq_true hn
  have htoken : wholeToken (decide (n < 0)) (Decimal.digits n.natAbs) = .scalar (.int n) := by
    rw [wholeToken, if_neg (not_lt.2 hlength), Decimal.digitsValue_digits]
    exact congrArg (fun k => Token.scalar (.int k)) (signedWhole_natAbs n)
  rw [fractionText, if_pos rfl, exponentPart, List.append_nil, List.append_nil] at hread
  rw [intText, List.append_assoc]
  rw [hct, List.cons_append] at hread ⊢
  rw [readScalar?_sign _ hc, hread, if_pos (by rfl), ← hct, htoken]

/-! ### Real numbers -/

theorem exists_parts_positional (c : Decimal) : ∃ w f, IsWhole w ∧
    (∀ x ∈ f, isAsciiDigit x = true) ∧
    c.positional = Decimal.signText c.negative ++ (w ++ fractionText f) := by
  obtain ⟨negative, n, e⟩ := c
  cases e with
  | ofNat e =>
      rcases Nat.eq_zero_or_pos n with rfl | hn
      · exact ⟨['0'], [], isWhole_digits 0, by simp, rfl⟩
      · refine ⟨_, [], isWhole_digits_zeros hn e, by simp, ?_⟩
        simp [Decimal.positional, fractionText, hn.ne']
  | negSucc e =>
      refine ⟨Decimal.wholeDigits n (e + 1), Decimal.fractionDigits n (e + 1),
        isWhole_wholeDigits n (e + 1), fun _ => Decimal.isAsciiDigit_of_mem_fractionDigits, ?_⟩
      rw [fractionText, if_neg (Decimal.fractionDigits_succ_ne_nil n e),
        Decimal.positional_negSucc]

/-- A number is laid out in the parts in which it is read, and is not whole. -/
theorem exists_parts_layout (layout : RecordLayout) (c : Decimal) : ∃ w f e, IsWhole w ∧
    (∀ x ∈ f, isAsciiDigit x = true) ∧ (f = [] → e ≠ none) ∧
    layout.decimal c =
      Decimal.signText c.negative ++ (w ++ fractionText f ++ exponentPart e) := by
  rw [RecordLayout.decimal]
  split
  · obtain ⟨w, f, hw, hf, htext⟩ := exists_parts_positional c
    have hwhole := point_not_mem_of_digits hw.isDigit
    have hsign : '.' ∉ Decimal.signText c.negative := by
      cases c.negative <;> simp [Decimal.signText]
    dsimp only
    rw [htext]
    by_cases hf0 : f = []
    · refine ⟨w, ['0'], none, hw, by simp [isAsciiDigit], by simp, ?_⟩
      subst hf0
      simp [fractionText, exponentPart, hwhole, hsign]
    · refine ⟨w, f, none, hw, hf, fun h => absurd h hf0, ?_⟩
      simp [fractionText, exponentPart, hf0]
  · obtain ⟨x, u, hx⟩ := List.exists_cons_of_ne_nil (Decimal.digits_ne_nil c.coefficient)
    have hdigit : ∀ y ∈ x :: u, isAsciiDigit y = true :=
      fun y hy => Decimal.isAsciiDigit_of_mem_digits (hx ▸ hy)
    refine ⟨[x], u, some c.leadingExponent, ⟨by simp, fun y hy => hdigit y (by simp_all), by simp⟩,
      fun y hy => hdigit y (List.mem_cons_of_mem _ hy), by simp, ?_⟩
    simp [Decimal.scientific, hx, fractionText, exponentPart, exponentText]

/-- A finite double is read off what follows it, with its sign. -/
theorem readScalar?_number {x : Float} (hx : x.isFinite = true) {rest : Text}
    (h : EndsNumber rest) :
    readScalar? (numberLayout.text x ++ rest) = some (.scalar (.real x), rest) := by
  obtain ⟨d, hd⟩ := Dyadic.exists_of_isFinite hx
  obtain ⟨c, hread, hnegative, hvalue⟩ := exists_decimal?_layout numberLayout d.shortest
  obtain ⟨w, f, e, hw, hf, he, htext⟩ := exists_parts_layout numberLayout d.shortest
  obtain ⟨a, t, rfl⟩ := List.exists_cons_of_ne_nil hw.ne_nil
  have ha := hw.isDigit a List.mem_cons_self
  have hexponent : exponent? (exponentPart e) = some (e.getD 0) := by
    cases e with
    | none => rfl
    | some lead => exact Decimal.exponent?_scientific lead
  have hparts := @Reading.unsigned?_exponent _ f (exponentPart e) hw.isDigit hf hw.ne_nil
    (by simpa using head?_exponentPart e endsNumber_nil)
  have hc : (⟨d.shortest.negative, digitsValue (a :: t ++ f), e.getD 0 - f.length⟩ : Decimal) = c := by
    rw [← fractionText, hexponent, List.cons_append, List.cons_append] at hparts
    rw [htext, List.cons_append, List.cons_append, Reading.decimal?_signText _ ha, hparts] at hread
    exact Option.some.inj hread
  have htoken : realToken d.shortest.negative (a :: t) f (e.getD 0) = .scalar (.real x) := by
    rw [realToken, hc, Decimal.toFloat_of_value hd (hnegative.trans d.negative_shortest) hvalue]
  have hscan := readUnsigned?_parts d.shortest.negative hw hf e h
  rw [RecordLayout.text, hd]
  dsimp only
  rw [htext, List.append_assoc]
  rw [List.cons_append, List.cons_append, List.cons_append] at hscan ⊢
  rw [readScalar?_sign _ ha, hscan, if_neg, htoken]
  rw [Bool.and_eq_true, decide_eq_true_eq, Option.isNone_iff_eq_none]
  exact fun h => he h.1 h.2

end Json
end PocketCalculator
