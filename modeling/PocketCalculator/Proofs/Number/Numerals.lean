import PocketCalculator.Proofs.Number.Opposites
import PocketCalculator.Proofs.Number.Reading

/-! # Numerals of the same value

The value of a numeral is that of its digits with its sign (`Numeral.value_eq_ok_iff`).  So zeros in
front of the digits change nothing (`Numeral.value_of_zeros`), and the sign can be taken off
(`Numeral.value_of_negative`). -/

namespace PocketCalculator

namespace Reading

theorem isAsciiDigit_of_mem_replicate {k : Nat} {c : Char} (h : c ∈ List.replicate k '0') :
    isAsciiDigit c = true := by
  rw [(List.mem_replicate.1 h).2]
  decide

theorem digitsValue_zeros (k : Nat) (t : Text) :
    digitsValue (List.replicate k '0' ++ t) = digitsValue t := by
  rw [digitsValue, Nat.ofDigitChars_append, Nat.ofDigitChars_replicate_zero, Nat.mul_zero]
  rfl

theorem unsigned?_zeros {t : Text} (h : ∀ c ∈ t, isPlainNumeralChar c = true)
    (hp : t.count '.' ≤ 1) (hd : (unsigned? t).isSome) (k : Nat) :
    unsigned? (List.replicate k '0' ++ t) = unsigned? t := by
  have zeros {w : Text} (hw : ∀ c ∈ w, isAsciiDigit c = true) :
      ∀ c ∈ List.replicate k '0' ++ w, isAsciiDigit c = true := by
    intro c hc
    rcases List.mem_append.1 hc with hc | hc
    · exact isAsciiDigit_of_mem_replicate hc
    · exact hw c hc
  rcases digits_or_point h hp with hw | ⟨w, f, rfl, hw, hf⟩
  · rw [unsigned?_whole hw] at hd ⊢
    have hne : t ≠ [] := by
      rintro rfl
      cases hd
    rw [unsigned?_whole (zeros hw), if_neg hne, if_neg (List.append_ne_nil_of_right_ne_nil _ hne),
      digitsValue_zeros]
  · rw [unsigned?_point hw hf] at hd ⊢
    have hne : ¬(w = [] ∧ f = []) := by
      intro he
      rw [if_pos he] at hd
      cases hd
    have hne' : ¬(List.replicate k '0' ++ w = [] ∧ f = []) :=
      fun he => hne ⟨(List.append_eq_nil_iff.1 he.1).2, he.2⟩
    rw [← List.append_assoc, unsigned?_point (zeros hw) hf, if_neg hne, if_neg hne',
      List.append_assoc, digitsValue_zeros]

end Reading

namespace Numeral

/-- The value of a numeral is that of its digits with its sign. -/
theorem value_eq_ok_iff (n : Numeral) {x : Float} :
    n.value = .ok x ↔ n.body.count '.' ≤ 1 ∧ ∃ d, Reading.unsigned? (n.body.map Reading.plain) =
      some d ∧ Decimal.toFloat ⟨n.negative, d.1, d.2⟩ = x := by
  have hf := Reading.float?_eq n.negative n.body_ne_nil n.isNumeralChar_of_mem
  rw [value, readNumber, n.count_point_text, text, hf]
  constructor
  · intro h
    split at h
    · cases h
    · rename_i hp
      refine ⟨by omega, ?_⟩
      cases hd : Reading.unsigned? (n.body.map Reading.plain) with
      | none =>
          rw [hd] at h
          cases h
      | some d =>
          rw [hd] at h
          cases h
          exact ⟨d, rfl, rfl⟩
  · rintro ⟨hp, d, hd, rfl⟩
    rw [if_neg (by omega), hd]
    rfl

/-- The sign of a numeral can be taken off. -/
theorem value_of_negative {n m : Numeral} {x : Float} (hn : n.negative = true)
    (hm : m.negative = false) (hb : n.body = m.body) (hx : n.value = .ok x) :
    ∃ y, m.value = .ok y ∧ x = -y := by
  obtain ⟨hp, d, hd, rfl⟩ := n.value_eq_ok_iff.1 hx
  rw [hb] at hp hd
  rw [hn, Decimal.toFloat_negative]
  exact ⟨_, m.value_eq_ok_iff.2 ⟨hp, d, hd, congrArg (fun b => Decimal.toFloat ⟨b, d.1, d.2⟩) hm⟩,
    rfl⟩

/-- Zeros in front of a well-written numeral can be left out. -/
theorem value_of_zeros {n m : Numeral} {k : Nat} {x : Float} (hn : n.negative = m.negative)
    (hb : n.body = List.replicate k '0' ++ m.body) (hm : m.WellWritten) (hx : n.value = .ok x) :
    m.value = .ok x := by
  obtain ⟨-, d, hd, rfl⟩ := n.value_eq_ok_iff.1 hx
  obtain ⟨y, hy⟩ := m.exists_value_iff.2 hm
  obtain ⟨hp, d', hd', -⟩ := m.value_eq_ok_iff.1 hy
  have hplain := Reading.isPlainNumeralChar_of_mem_map m.isNumeralChar_of_mem
  have hmap : n.body.map Reading.plain = List.replicate k '0' ++ m.body.map Reading.plain := by
    rw [hb, List.map_append, List.map_replicate]
    rfl
  have hsome : (Reading.unsigned? (m.body.map Reading.plain)).isSome := by
    rw [hd', Option.isSome_some]
  rw [hmap, Reading.unsigned?_zeros hplain (m.count_point_plain ▸ hp) hsome] at hd
  exact m.value_eq_ok_iff.2 ⟨hp, d, hd, by rw [hn]⟩

end Numeral
end PocketCalculator
