import PocketCalculator.Format.Engineering
import PocketCalculator.Proofs.Number.Recorded
import Mathlib.Data.List.DropRight

/-! # Zeros at the end

Taking the zeros off behind the point leaves a plain numeral of the same value
(`PlainNumeral.exists_trimZeros`); the sign of a zero goes too.  A text with an exponent keeps it,
so it is no plain numeral afterwards: `trimZeros_scientific_ne`. -/

namespace PocketCalculator

open Reading (digitsValue)

/-! ### The end of a text -/

namespace Text

theorem dropTrailing_concat (c x : Char) (t : Text) :
    dropTrailing c (t ++ [x]) = if x = c then dropTrailing c t else t ++ [x] := by
  have h := List.rdropWhile_concat (· == c) t x
  simp only [beq_iff_eq] at h
  exact h

theorem mem_dropTrailing {c x : Char} (hx : x ≠ c) {t : Text} (h : x ∈ t) :
    x ∈ dropTrailing c t := by
  induction t using List.reverseRecOn with
  | nil => cases h
  | append_singleton t y ih =>
      rw [dropTrailing_concat]
      by_cases hy : y = c
      · rw [if_pos hy]
        refine ih ((List.mem_append.1 h).resolve_right fun hmem => hx ?_)
        rw [List.mem_singleton.1 hmem, hy]
      · rwa [if_neg hy]

end Text

/-! ### Plain numerals -/

namespace PlainNumeral

theorem mem_text {n : PlainNumeral} {x : Char} (h : x ∈ n.text) :
    isAsciiDigit x = true ∨ x = '-' ∨ x = '.' := by
  rw [text, List.mem_append, List.mem_append] at h
  rcases h with (h | h) | h
  · cases hs : n.negative with
    | true => simp_all [Decimal.signText]
    | false => simp [hs, Decimal.signText] at h
  · exact .inl (n.isDigit_whole x h)
  · split at h
    · cases h
    · rcases List.mem_cons.1 h with h | h
      · exact .inr (.inr h)
      · exact .inl (n.isDigit_fraction x h)

theorem exponent_not_mem_text (n : PlainNumeral) : 'e' ∉ n.text :=
  fun h => absurd (mem_text h) (by decide)

theorem dropTrailing_whole (n : PlainNumeral) :
    Text.dropTrailing '.' (Decimal.signText n.negative ++ n.whole) =
      Decimal.signText n.negative ++ n.whole := by
  obtain ⟨w, x, hw⟩ := (List.eq_nil_or_concat n.whole).resolve_left n.whole_ne_nil
  have hx : x ≠ '.' := by
    rintro rfl
    have := n.isDigit_whole '.' (by rw [hw]; simp)
    exact absurd this (by decide)
  rw [hw, List.concat_eq_append, ← List.append_assoc, Text.dropTrailing_concat, if_neg hx]

/-- Zeros taken off the digits behind a point, and the point if none is left. -/
theorem exists_dropTrailing (n : PlainNumeral) {f : Text} (hf : ∀ c ∈ f, isAsciiDigit c = true) :
    ∃ m : PlainNumeral,
      m.text = Text.dropTrailing '.' (Text.dropTrailing '0'
        (Decimal.signText n.negative ++ n.whole ++ '.' :: f)) ∧
      m.negative = n.negative ∧ m.size = digitsValue (n.whole ++ f) / 10 ^ f.length := by
  induction f using List.reverseRecOn with
  | nil =>
      refine ⟨⟨n.negative, n.whole, [], n.whole_ne_nil, n.isDigit_whole, hf⟩, ?_, rfl, rfl⟩
      rw [Text.dropTrailing_concat, if_neg (by decide), Text.dropTrailing_concat, if_pos rfl,
        n.dropTrailing_whole]
      simp [text]
  | append_singleton f x ih =>
      rw [← List.cons_append, ← List.append_assoc, Text.dropTrailing_concat]
      by_cases hx : x = '0'
      · subst hx
        obtain ⟨m, htext, hnegative, hsize⟩ := ih fun c hc => hf c (List.mem_append_left _ hc)
        refine ⟨m, by rw [if_pos rfl, htext], hnegative, ?_⟩
        rw [hsize, List.length_append, List.length_singleton, ← List.append_assoc,
          digitsValue_concat_zero, pow_succ']
        push_cast
        rw [mul_div_mul_left _ _ (by norm_num)]
      · have hpoint : x ≠ '.' := by
          rintro rfl
          exact absurd (hf '.' (by simp)) (by decide)
        refine ⟨⟨n.negative, n.whole, f ++ [x], n.whole_ne_nil, n.isDigit_whole, hf⟩, ?_, rfl, rfl⟩
        rw [if_neg hx, Text.dropTrailing_concat, if_neg hpoint]
        simp [text]

/-- Taking the zeros off keeps the value. -/
theorem exists_trimZeros (n : PlainNumeral) :
    ∃ m : PlainNumeral, m.text = trimZeros n.text ∧ m.value = n.value := by
  obtain ⟨m, htext, hvalue⟩ : ∃ m : PlainNumeral,
      m.text = (if n.text.contains '.' then
        Text.dropTrailing '.' (Text.dropTrailing '0' n.text) else n.text) ∧ m.value = n.value := by
    by_cases hf : n.fraction = []
    · refine ⟨n, ?_, rfl⟩
      rw [if_neg (by simpa using mt n.point_mem_text.1 (not_not.2 hf))]
    · obtain ⟨m, htext, hnegative, hsize⟩ := n.exists_dropTrailing n.isDigit_fraction
      refine ⟨m, ?_, ?_⟩
      · rw [if_pos (by simpa using n.point_mem_text.2 hf), htext, text, if_neg hf]
      · rw [value, value, hnegative, hsize]
        rfl
  have hne : m.text ≠ [] := by
    have := m.whole_ne_nil
    simp [text, this]
  rw [trimZeros, ← htext]
  by_cases hzero : m.text = ['-', '0']
  · rw [if_pos (.inl hzero)]
    refine ⟨⟨false, ['0'], [], by simp, by simp [isAsciiDigit], by simp⟩, rfl, ?_⟩
    rw [← hvalue, @value_eq_of_text_eq m
      ⟨true, ['0'], [], by simp, by simp [isAsciiDigit], by simp⟩ hzero]
    have hsize : digitsValue ['0'] = 0 := rfl
    simp [value, size, hsize]
  · rw [if_neg (by simp [hzero, hne])]
    exact ⟨m, rfl, hvalue⟩

end PlainNumeral

theorem mem_trimZeros {t : Text} {x : Char} (h : x ∈ trimZeros t) : x ∈ t ∨ x = '0' := by
  have hsub (c : Char) (t : Text) : Text.dropTrailing c t ⊆ t :=
    (List.rdropWhile_prefix (· == c) t).subset
  have hkept :
      (if t.contains '.' then Text.dropTrailing '.' (Text.dropTrailing '0' t) else t) ⊆ t := by
    split
    · exact fun y hy => hsub _ _ (hsub _ _ hy)
    · exact fun y hy => hy
  rw [trimZeros] at h
  generalize (if t.contains '.' then _ else t) = kept at h hkept
  split at h
  · exact .inr (List.mem_singleton.1 h)
  · exact .inl (hkept h)

/-! ### Scientific texts -/

theorem mem_scientific {c : Decimal} {x : Char} (h : x ∈ c.scientific) :
    isAsciiDigit x = true ∨ x ∈ ['-', '+', '.', 'e'] := by
  have hdigit : ∀ y ∈ Decimal.digits c.coefficient, isAsciiDigit y = true :=
    fun y hy => Decimal.isAsciiDigit_of_mem_digits hy
  rw [Decimal.scientific] at h
  simp only [List.mem_append, List.mem_cons] at h
  rcases h with ((h | h) | h) | h | h | h
  · cases hs : c.negative with
    | true => simp_all [Decimal.signText]
    | false => simp [hs, Decimal.signText] at h
  · exact .inl (hdigit x (List.mem_of_mem_take h))
  · split at h
    · cases h
    · rcases List.mem_cons.1 h with h | h
      · simp [h]
      · exact .inl (hdigit x (List.mem_of_mem_drop h))
  · simp [h]
  · split at h <;> simp [h]
  · exact .inl (Decimal.isAsciiDigit_of_mem_padLeft h)

theorem exponent_mem_scientific (c : Decimal) : 'e' ∈ c.scientific := by
  rw [Decimal.scientific]
  exact List.mem_append_right _ List.mem_cons_self

theorem exponent_mem_trimZeros {t : Text} (h : 'e' ∈ t) : 'e' ∈ trimZeros t := by
  have hkept :
      'e' ∈ (if t.contains '.' then Text.dropTrailing '.' (Text.dropTrailing '0' t) else t) := by
    split
    · exact Text.mem_dropTrailing (by decide) (Text.mem_dropTrailing (by decide) h)
    · exact h
  rw [trimZeros, if_neg]
  · exact hkept
  · rintro (hzero | hnil)
    · rw [hzero] at hkept
      exact absurd hkept (by decide)
    · rw [hnil] at hkept
      cases hkept

/-- A scientific text is no plain numeral, with or without its zeros. -/
theorem trimZeros_scientific_ne (c : Decimal) (n : PlainNumeral) :
    n.text ≠ trimZeros c.scientific :=
  fun h => n.exponent_not_mem_text (h ▸ exponent_mem_trimZeros (exponent_mem_scientific c))

end PocketCalculator
