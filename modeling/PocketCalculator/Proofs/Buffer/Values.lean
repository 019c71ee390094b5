import PocketCalculator.Buffer
import PocketCalculator.Proofs.Unit.Keyed

/-! # Values at the end of a text

Whether a text ends with a value is read off its last character or, behind the name of the last
result and the mark of an inverse, off its last characters.  In a keyed text these belong to one
unit, so nothing that stands in front of a keyed text matters (`Buffer.endsWithValue_append`). -/

namespace PocketCalculator.Buffer

variable {t u : Text}

theorem endsWithValue_of_getLast? {c : Char} (h : t.getLast? = some c) (h₁ : c ≠ '¹')
    (h₂ : c ≠ 's') : endsWithValue t = endsValue c := by
  obtain ⟨t, rfl⟩ := List.getLast?_eq_some_iff.1 h
  simp [endsWithValue, Text.endsWith, Text.startsWith, Text.after?, inverseMark, ansName, h₁.symm,
    h₂.symm]

theorem endsValue_of_plain {c : Char} (h : isPlainNumeralChar c = true) : endsValue c = true := by
  rw [isPlainNumeralChar, Bool.or_eq_true, beq_iff_eq] at h
  rcases h with h | rfl
  · rw [endsValue, h, Bool.true_or]
  · decide

theorem endsWithValue_of_isSuffix (h : ansName <:+ t ∨ inverseMark <:+ t) :
    endsWithValue t = true := by
  rw [endsWithValue]
  rcases h with h | h
  · rw [Text.endsWith_iff.2 h, Bool.or_true]
  · rw [Text.endsWith_iff.2 h, Bool.or_true, Bool.true_or]

theorem endsWithValue_append_unit (t : Text) (h : u ∈ keyUnits) :
    endsWithValue (t ++ u) = endsWithValue u := by
  have key : keyUnits.all (fun u => u.endsWith ansName || u.endsWith inverseMark ||
      u.getLast?.any fun c => c != '¹' && c != 's') = true := by
    decide
  have hu := List.all_eq_true.1 key u h
  rw [Bool.or_eq_true, Bool.or_eq_true, Text.endsWith_iff, Text.endsWith_iff,
    Option.any_eq_true] at hu
  rcases hu with hu | ⟨c, hc, hplain⟩
  · rw [endsWithValue_of_isSuffix hu]
    exact endsWithValue_of_isSuffix (hu.imp (·.trans (List.suffix_append t u))
      (·.trans (List.suffix_append t u)))
  · rw [Bool.and_eq_true, bne_iff_ne, bne_iff_ne] at hplain
    obtain ⟨h₁, h₂⟩ := hplain
    have hlast : (t ++ u).getLast? = some c := by
      obtain ⟨u, rfl⟩ := List.getLast?_eq_some_iff.1 hc
      rw [← List.append_assoc, List.getLast?_concat]
    rw [endsWithValue_of_getLast? hlast h₁ h₂, endsWithValue_of_getLast? hc h₁ h₂]

/-- A keyed text ends with a value or not, whatever stands in front of it. -/
theorem endsWithValue_append (t : Text) (hk : Keyed u) (hu : u ≠ []) :
    endsWithValue (t ++ u) = endsWithValue u := by
  obtain ⟨l, v, hunits, rfl⟩ := exists_units_concat hu
  have hv : v ∈ keyUnits := hk (hunits ▸ List.mem_append_right l List.mem_cons_self)
  rw [← List.append_assoc, endsWithValue_append_unit _ hv, endsWithValue_append_unit _ hv]

end PocketCalculator.Buffer
