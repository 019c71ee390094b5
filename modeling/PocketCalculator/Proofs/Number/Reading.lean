import PocketCalculator.Token
import Mathlib.Data.List.TakeWhile

/-! # Reading numerals

A numeral is read through several passes: its characters are made plain, blanks and underscores are
taken away, a sign is split off, and words are told from digits.  On the characters of a numeral all
of these passes but the first do nothing (`float?_eq`), so what is left is the grammar of a decimal:
digits, then possibly a point and more digits (`unsigned?_whole`, `unsigned?_point`).  A numeral has
a value exactly when it is well written (`Numeral.exists_value_iff`). -/

namespace PocketCalculator

/-! ### Characters of numerals -/

/-- The characters of plain numerals. -/
def plainNumeralChars : Text :=
  ['0', '1', '2', '3', '4', '5', '6', '7', '8', '9', '.']

theorem isAsciiDigit_iff {c : Char} : isAsciiDigit c = true ↔ 48 ≤ c.toNat ∧ c.toNat ≤ 57 := by
  simp only [isAsciiDigit, Bool.and_eq_true, decide_eq_true_eq]
  exact Iff.rfl

theorem mem_plainNumeralChars {c : Char} (h : isPlainNumeralChar c = true) :
    c ∈ plainNumeralChars := by
  rw [isPlainNumeralChar, Bool.or_eq_true, isAsciiDigit_iff, beq_iff_eq] at h
  obtain ⟨h₁, h₂⟩ | rfl := h
  · have key : ∀ k < 10, Char.ofNat (48 + k) ∈ plainNumeralChars := by decide
    have hc : c = Char.ofNat (48 + (c.toNat - 48)) := by
      rw [show 48 + (c.toNat - 48) = c.toNat by omega, Char.ofNat_toNat]
    rw [hc]
    exact key _ (by omega)
  · decide

theorem forall_plain {P : Char → Prop} [DecidablePred P]
    (h : plainNumeralChars.all (fun c => P c) = true) {c : Char}
    (hc : isPlainNumeralChar c = true) : P c :=
  of_decide_eq_true (List.all_eq_true.1 h c (mem_plainNumeralChars hc))

theorem isPlainNumeralChar_of_digit {c : Char} (h : isAsciiDigit c = true) :
    isPlainNumeralChar c = true := by
  simp [isPlainNumeralChar, h]

theorem isDecimalDigit_of_isAsciiDigit {c : Char} (h : isAsciiDigit c = true) :
    isDecimalDigit c = true := by
  have key : plainNumeralChars.all (fun c => isAsciiDigit c = true → isDecimalDigit c = true) =
      true := by decide
  exact forall_plain key (isPlainNumeralChar_of_digit h) h

theorem exists_zero_of_digit {c : Char} {v : Nat} (h : digitValue? c = some v) :
    ∃ z ∈ zeroDigits, c.toNat = z + v ∧ v < 10 := by
  have hv := digitValue?_lt h
  obtain ⟨z, hz, rfl⟩ := Option.map_eq_some_iff.1 h
  have hr := List.find?_some hz
  simp only [Bool.and_eq_true, decide_eq_true_eq] at hr
  exact ⟨z, List.mem_of_find?_eq_some hz, by omega, hv⟩

theorem isBlank_eq_false_of_digit {c : Char} (h : isDecimalDigit c = true) : isBlank c = false := by
  obtain ⟨v, hv⟩ := Option.isSome_iff_exists.1 h
  obtain ⟨z, hz, hc, hlt⟩ := exists_zero_of_digit hv
  -- the blanks lie between the runs of ten digits
  have key : ∀ z ∈ zeroDigits, z = 0x30 ∨ 0x660 ≤ z ∧ z + 10 ≤ 0x1680 ∨
      0x1680 < z ∧ z + 10 ≤ 0x2000 ∨ 0x3000 < z := by decide
  have := key z hz
  simp only [isBlank, Bool.or_eq_false_iff, Bool.and_eq_false_iff, decide_eq_false_iff_not,
    beq_eq_false_iff_ne]
  omega

theorem isAsciiDigit_of_lt {c : Char} (h : isDecimalDigit c = true) (hc : c.toNat < 0x7F) :
    isAsciiDigit c = true := by
  obtain ⟨v, hv⟩ := Option.isSome_iff_exists.1 h
  obtain ⟨z, hz, he, hlt⟩ := exists_zero_of_digit hv
  have key : ∀ z ∈ zeroDigits, z = 0x30 ∨ 0x7F ≤ z := by decide
  rw [isAsciiDigit_iff]
  have := key z hz
  omega

theorem isNumeralChar_of_plain {c : Char} (h : isPlainNumeralChar c = true) :
    isNumeralChar c = true := by
  have key : plainNumeralChars.all (fun c => isNumeralChar c = true) = true := by decide
  exact forall_plain key h

namespace Reading

/-! ### The passes -/

theorem plain_of_lt {c : Char} (h : c.toNat < 0x7F) : plain c = c := by
  simp [plain, h]

theorem map_plain_eq {t : Text} (h : ∀ c ∈ t, isPlainNumeralChar c = true) : t.map plain = t := by
  have key : plainNumeralChars.all (fun c => c.toNat < 0x7F) = true := by decide
  have hplain : ∀ c ∈ t, plain c = id c := fun c hc => plain_of_lt (forall_plain key (h c hc))
  rw [List.map_congr_left hplain, List.map_id]

theorem isAsciiDigit_plain {c : Char} (h : isDecimalDigit c = true) :
    isAsciiDigit (plain c) = true := by
  by_cases hc : c.toNat < 0x7F
  · rw [plain_of_lt hc]
    exact isAsciiDigit_of_lt h hc
  · obtain ⟨v, hv⟩ := Option.isSome_iff_exists.1 h
    have key : ∀ v < 10, isAsciiDigit (Char.ofNat ('0'.toNat + v)) = true := by decide
    simp only [plain, hc, if_false, isBlank_eq_false_of_digit h, Bool.false_eq_true, hv]
    exact key v (digitValue?_lt hv)

theorem isPlainNumeralChar_plain {c : Char} (h : isNumeralChar c = true) :
    isPlainNumeralChar (plain c) = true := by
  rw [isNumeralChar, Bool.or_eq_true, beq_iff_eq] at h
  obtain h | rfl := h
  · exact isPlainNumeralChar_of_digit (isAsciiDigit_plain h)
  · decide

theorem isPlainNumeralChar_of_mem_map {body : Text} (h : ∀ c ∈ body, isNumeralChar c = true) :
    ∀ c ∈ body.map plain, isPlainNumeralChar c = true := by
  intro c hc
  obtain ⟨b, hb, rfl⟩ := List.mem_map.1 hc
  exact isPlainNumeralChar_plain (h b hb)

theorem isAsciiDigit_plain_iff {c : Char} (h : isNumeralChar c = true) :
    isAsciiDigit (plain c) = true ↔ isDecimalDigit c = true := by
  refine ⟨fun hd => ?_, isAsciiDigit_plain⟩
  rw [isNumeralChar, Bool.or_eq_true, beq_iff_eq] at h
  obtain h | rfl := h
  · exact h
  · exact absurd hd (by decide)

theorem plain_eq_point_iff {c : Char} (h : isNumeralChar c = true) : plain c = '.' ↔ c = '.' := by
  rw [isNumeralChar, Bool.or_eq_true, beq_iff_eq] at h
  obtain h | rfl := h
  · have hp := isAsciiDigit_plain h
    constructor
    · intro e
      rw [e] at hp
      exact absurd hp (by decide)
    · rintro rfl
      exact absurd h (by decide)
  · exact iff_of_true (by decide) rfl

theorem trimmed_eq {t : Text} (h : ∀ c ∈ t, isAsciiBlank (plain c) = false) :
    trimmed t = t.map plain := by
  have hd : ∀ s : Text, (∀ c ∈ s, isAsciiBlank c = false) → s.dropWhile isAsciiBlank = s := by
    intro s hs
    cases s with
    | nil => rfl
    | cons c s => simp [hs c List.mem_cons_self]
  have hm : ∀ c ∈ t.map plain, isAsciiBlank c = false := by
    simpa using h
  rw [trimmed, hd _ hm, hd _ (by simpa using h), List.reverse_reverse]

theorem withoutUnderscores_eq {t : Text} (h : '_' ∉ t) (afterDigit : Bool) :
    withoutUnderscores afterDigit t = some t := by
  induction t generalizing afterDigit with
  | nil => rfl
  | cons c t ih =>
      rw [List.mem_cons, not_or] at h
      rw [withoutUnderscores, ih h.2]
      · rfl
      · exact fun e => h.1 e.symm

/-- A run of plain characters is none of the words for special values. -/
theorem not_word_of_plain {body : Text} (hne : body ≠ [])
    (h : ∀ c ∈ body, isPlainNumeralChar c = true) :
    ¬(body.map Char.toLower = "inf".toList ∨ body.map Char.toLower = "infinity".toList) ∧
      body.map Char.toLower ≠ "nan".toList := by
  cases body with
  | nil => exact absurd rfl hne
  | cons c body =>
      have key : plainNumeralChars.all (fun c => c.toLower ≠ 'i' ∧ c.toLower ≠ 'n') = true := by
        decide
      obtain ⟨hi, hn⟩ := forall_plain key (h c List.mem_cons_self)
      simp [hi, hn]

theorem splitSign_of_plain {body : Text} (h : ∀ c ∈ body, isPlainNumeralChar c = true) :
    splitSign body = (false, body) := by
  cases body with
  | nil => rfl
  | cons c body =>
      have key : plainNumeralChars.all (fun c => c ≠ '-' ∧ c ≠ '+') = true := by decide
      obtain ⟨hm, hp⟩ := forall_plain key (h c List.mem_cons_self)
      rw [splitSign]
      · exact fun _ e => hm (List.cons.inj e).1
      · exact fun _ e => hp (List.cons.inj e).1

/-- On the characters of a numeral only the digits of other scripts and the sign matter. -/
theorem float?_eq (negative : Bool) {body : Text} (hne : body ≠ [])
    (h : ∀ c ∈ body, isNumeralChar c = true) :
    float? (if negative then '-' :: body else body) =
      (unsigned? (body.map plain)).map fun d => Decimal.toFloat ⟨negative, d.1, d.2⟩ := by
  have hplain := isPlainNumeralChar_of_mem_map h
  have hblank : ∀ c ∈ body, isAsciiBlank (plain c) = false := by
    intro c hc
    have key : plainNumeralChars.all (fun c => isAsciiBlank c = false) = true := by decide
    exact forall_plain key (isPlainNumeralChar_plain (h c hc))
  have hunder : '_' ∉ body.map plain := fun hc => absurd (hplain _ hc) (by decide)
  obtain ⟨hinf, hnan⟩ := not_word_of_plain (by simpa using hne) hplain
  have hbody : ∀ n, (do
      let word := (body.map plain).map Char.toLower
      if word = "inf".toList ∨ word = "infinity".toList then return infinite n
      if word = "nan".toList then return notANumber
      let d ← unsigned? (body.map plain)
      return Decimal.toFloat ⟨n, d.1, d.2⟩) =
      (unsigned? (body.map plain)).map fun d => Decimal.toFloat ⟨n, d.1, d.2⟩ := by
    intro n
    simp only [if_neg hinf, if_neg hnan]
    exact Option.map_eq_bind.symm
  cases negative with
  | false =>
      rw [if_neg (by simp), float?, trimmed_eq hblank, withoutUnderscores_eq hunder,
        Option.bind_eq_bind, Option.bind_some, splitSign_of_plain hplain]
      exact hbody false
  | true =>
      have hblank' : ∀ c ∈ '-' :: body, isAsciiBlank (plain c) = false := by
        intro c hc
        obtain rfl | hc := List.mem_cons.1 hc
        · decide
        · exact hblank c hc
      have hmap : ('-' :: body).map plain = '-' :: body.map plain := rfl
      have hunder' : '_' ∉ '-' :: body.map plain := by
        rw [List.mem_cons, not_or]
        exact ⟨by decide, hunder⟩
      rw [if_pos rfl, float?, trimmed_eq hblank', hmap, withoutUnderscores_eq hunder',
        Option.bind_eq_bind, Option.bind_some, splitSign]
      exact hbody true

/-! ### Decimals without an exponent -/

theorem takeWhile_digits {w rest : Text} (hw : ∀ c ∈ w, isAsciiDigit c = true) :
    (w ++ '.' :: rest).takeWhile isAsciiDigit = w ∧
      (w ++ '.' :: rest).dropWhile isAsciiDigit = '.' :: rest :=
  Text.takeWhile_append hw (by rintro c ⟨⟩; decide)

theorem unsigned?_whole {w : Text} (hw : ∀ c ∈ w, isAsciiDigit c = true) :
    unsigned? w = if w = [] then none else some (digitsValue w, 0) := by
  rw [unsigned?, List.takeWhile_eq_self_iff.2 hw, List.dropWhile_eq_nil_iff.2 hw]
  simp [exponent?]

theorem unsigned?_point {w f : Text} (hw : ∀ c ∈ w, isAsciiDigit c = true)
    (hf : ∀ c ∈ f, isAsciiDigit c = true) :
    unsigned? (w ++ '.' :: f) =
      if w = [] ∧ f = [] then none else some (digitsValue (w ++ f), -(f.length : Int)) := by
  rw [unsigned?, (takeWhile_digits hw).1, (takeWhile_digits hw).2]
  simp only [List.takeWhile_eq_self_iff.2 hf, List.dropWhile_eq_nil_iff.2 hf]
  simp [exponent?]

/-- A plain numeral with at most one point is a run of digits, or two of them around a point. -/
theorem digits_or_point {t : Text} (h : ∀ c ∈ t, isPlainNumeralChar c = true)
    (hp : t.count '.' ≤ 1) :
    (∀ c ∈ t, isAsciiDigit c = true) ∨
      ∃ w f, t = w ++ '.' :: f ∧ (∀ c ∈ w, isAsciiDigit c = true) ∧
        ∀ c ∈ f, isAsciiDigit c = true := by
  have digit : ∀ s : Text, (∀ c ∈ s, isPlainNumeralChar c = true) → '.' ∉ s →
      ∀ c ∈ s, isAsciiDigit c = true := by
    intro s hs hn c hc
    have := hs c hc
    rw [isPlainNumeralChar, Bool.or_eq_true, beq_iff_eq] at this
    obtain hd | rfl := this
    · exact hd
    · exact absurd hc hn
  by_cases hm : '.' ∈ t
  · obtain ⟨w, f, rfl, hw⟩ := List.eq_append_cons_of_mem hm
    right
    refine ⟨w, f, rfl, digit w (fun c hc => h c (by simp [hc])) hw, ?_⟩
    refine digit f (fun c hc => h c (by simp [hc])) (fun hf => ?_)
    have := List.count_pos_iff.2 hf
    simp only [List.count_append, List.count_cons_self] at hp
    omega
  · exact .inl (digit t h hm)

theorem isSome_unsigned?_iff {t : Text} (h : ∀ c ∈ t, isPlainNumeralChar c = true)
    (hp : t.count '.' ≤ 1) : (unsigned? t).isSome ↔ ∃ c ∈ t, isAsciiDigit c = true := by
  obtain hd | ⟨w, f, rfl, hw, hf⟩ := digits_or_point h hp
  · rw [unsigned?_whole hd]
    cases t with
    | nil => simp
    | cons c t => simpa using .inl (hd c List.mem_cons_self)
  · rw [unsigned?_point hw hf]
    cases w with
    | cons c w => simpa using .inl (hw c List.mem_cons_self)
    | nil =>
        cases f with
        | nil => simpa using (by decide : isAsciiDigit '.' = false)
        | cons c f => simpa using .inr (.inl (hf c List.mem_cons_self))

end Reading

/-! ### Well-written numerals -/

namespace Numeral

/-- A numeral with at least one digit and at most one point. -/
def WellWritten (n : Numeral) : Prop :=
  (∃ c ∈ n.body, isDecimalDigit c = true) ∧ n.body.count '.' ≤ 1

theorem isNumeralChar_of_mem (n : Numeral) : ∀ c ∈ n.body, isNumeralChar c = true :=
  List.all_eq_true.1 n.body_all

theorem text_ne_nil (n : Numeral) : n.text ≠ [] := by
  rw [text]
  split
  · exact List.cons_ne_nil _ _
  · exact n.body_ne_nil

theorem eq_or_mem_of_mem_text {n : Numeral} {c : Char} (h : c ∈ n.text) : c = '-' ∨ c ∈ n.body := by
  rw [text] at h
  split at h
  · exact List.mem_cons.1 h
  · exact .inr h

theorem not_mem_text {c : Char} (hm : c ≠ '-') (hc : isNumeralChar c = false)
    (n : Numeral) : c ∉ n.text := by
  intro h
  rcases eq_or_mem_of_mem_text h with h | h
  · exact hm h
  · cases hc.symm.trans (n.isNumeralChar_of_mem c h)

theorem count_point_text (n : Numeral) : n.text.count '.' = n.body.count '.' := by
  unfold text
  split
  · exact List.count_cons_of_ne (by decide)
  · rfl

theorem count_point_plain (n : Numeral) :
    (n.body.map Reading.plain).count '.' = n.body.count '.' := by
  simp only [List.count, List.countP_map]
  refine List.countP_congr fun c hc => ?_
  rw [Function.comp_apply, beq_iff_eq, beq_iff_eq]
  exact Reading.plain_eq_point_iff (n.isNumeralChar_of_mem c hc)

theorem isSome_float?_iff (n : Numeral) (hp : n.body.count '.' ≤ 1) :
    (Reading.float? n.text).isSome ↔ ∃ c ∈ n.body, isDecimalDigit c = true := by
  have hplain := Reading.isPlainNumeralChar_of_mem_map n.isNumeralChar_of_mem
  rw [text, Reading.float?_eq n.negative n.body_ne_nil n.isNumeralChar_of_mem, Option.isSome_map,
    Reading.isSome_unsigned?_iff hplain (n.count_point_plain ▸ hp)]
  constructor
  · rintro ⟨c, hc, hd⟩
    obtain ⟨b, hb, rfl⟩ := List.mem_map.1 hc
    exact ⟨b, hb, (Reading.isAsciiDigit_plain_iff (n.isNumeralChar_of_mem b hb)).1 hd⟩
  · rintro ⟨b, hb, hd⟩
    exact ⟨_, List.mem_map_of_mem hb, Reading.isAsciiDigit_plain hd⟩

/-- A numeral has a value exactly when it is well written. -/
theorem exists_value_iff (n : Numeral) : (∃ x, n.value = .ok x) ↔ n.WellWritten := by
  rw [value, readNumber, n.count_point_text]
  by_cases hp : 1 < n.body.count '.'
  · rw [if_pos hp]
    refine iff_of_false (fun ⟨x, h⟩ => by cases h) (fun h => ?_)
    have := h.2
    omega
  · rw [if_neg hp, WellWritten, ← n.isSome_float?_iff (by omega)]
    cases Reading.float? n.text with
    | none => simp
    | some x => simpa using by omega

end Numeral
end PocketCalculator
