import PocketCalculator.Buffer.Fill
import PocketCalculator.Proofs.Template.Recognition

/-! # Templates that a value completes

A value that fills a slot is a digit, the point or the name of the last result.  A text that ends
with one may end with a filled template: then the value is the operand behind a mark, alone or with
a sign in front of it, or the denominator of a fraction, or the last digit of a longer number.
`Recognised` lists these forms by the text in front of the value, and `exists_recognised` says that
there are no others. -/

namespace PocketCalculator

variable {front run v x : Text} {template : Template}

/-! ### Values -/

/-- The values that fill a slot, signs left aside. -/
inductive IsFilling : Text → Prop where
  | ans : IsFilling ansName
  | char {c : Char} (hc : isPlainNumeralChar c = true) : IsFilling [c]

theorem isFilling_of_isFillValue (h : isFillValue v = true) (hminus : v ≠ ['-']) : IsFilling v := by
  unfold isFillValue at h
  rw [Bool.or_eq_true, beq_iff_eq] at h
  rcases h with rfl | h
  · exact .ans
  · split at h
    · rename_i c
      rw [Bool.or_eq_true, beq_iff_eq] at h
      rcases h with h | rfl
      · exact .char h
      · exact absurd rfl hminus
    · cases h

namespace IsFilling

theorem isHalf (h : IsFilling v) : IsHalf v := by
  cases h with
  | ans => exact .ans
  | @char c hc => exact .number (List.cons_ne_nil c []) (List.forall_mem_singleton.2 hc)

theorem fillsBlank (h : IsFilling v) : FillsBlank v := by
  cases h with
  | ans => exact .ans
  | @char c hc => exact .number (List.cons_ne_nil c []) (List.forall_mem_singleton.2 hc)

theorem ne_blank (h : IsFilling v) : v ≠ [blankSymbol] := by
  rintro rfl
  exact h.fillsBlank.blank_not_mem List.mem_cons_self

theorem mem_keyUnits (h : IsFilling v) : v ∈ keyUnits := by
  cases h with
  | ans => exact text_mem_keyUnits .ans
  | char hc =>
      have key : plainNumeralChars.all (· ∈ keyChars) = true := by decide
      exact mem_keyUnits_iff.2 (.inl ⟨_, forall_plain key hc, rfl⟩)

theorem keyed (h : IsFilling v) : Keyed v := by
  have hv := keyed_flatten (List.cons_subset.2 ⟨h.mem_keyUnits, List.nil_subset _⟩)
  rwa [List.flatten_singleton] at hv

theorem exists_getLast? (h : IsFilling v) (t : Text) :
    ∃ c ∈ (t ++ v).getLast?, isPlainNumeralChar c = true ∨ c = 's' := by
  cases h with
  | ans => exact ⟨'s', List.getLast?_append_of_ne_nil t (by decide), .inr rfl⟩
  | @char c hc => exact ⟨c, List.getLast?_concat, .inl hc⟩

theorem withoutFinalBreak (h : IsFilling v) (t : Text) : withoutFinalBreak (t ++ v) = t ++ v := by
  rw [PocketCalculator.withoutFinalBreak, if_neg]
  intro hlast
  obtain ⟨c, hc, hvalue⟩ := h.exists_getLast? t
  rw [hlast] at hc
  cases hc
  exact absurd hvalue (by decide)

theorem emptyTemplateBefore?_eq_none (h : IsFilling v) (t : Text) :
    emptyTemplateBefore? (t ++ v) = none := by
  have key : ∀ f ∈ Template.all,
      f.text.getLast?.any (fun c => !isPlainNumeralChar c && c != 's') = true := by decide
  rw [Option.eq_none_iff_forall_not_mem]
  intro start hstart
  obtain ⟨x, f, ht, -⟩ := exists_of_emptyTemplateBefore? (h.withoutFinalBreak t) hstart
  obtain ⟨c, hc, hvalue⟩ := h.exists_getLast? t
  rw [ht, List.getLast?_append_of_ne_nil x f.text_ne_nil] at hc
  have hf := key f f.mem_all
  rw [Option.mem_def.1 hc, Option.any_some, Bool.and_eq_true, Bool.not_eq_true', bne_iff_ne] at hf
  rw [hf.1] at hvalue
  exact hf.2 (hvalue.resolve_left Bool.false_ne_true)

end IsFilling

/-! ### Operands that a value ends -/

section ends

variable (hv : IsFilling v)
include hv

/-- Where a text ends with a value and with a run of digits and points, the run is the value or
begins in front of it. -/
theorem IsFilling.of_run (hne : run ≠ []) (hrun : ∀ c ∈ run, isPlainNumeralChar c = true)
    (h : front ++ v = x ++ run) :
    v ≠ ansName ∧ (front = x ∨ ∃ c ∈ front.getLast?, isPlainNumeralChar c = true) := by
  rcases List.eq_nil_or_concat run with hnil | ⟨z, d, hz⟩
  · exact absurd hnil hne
  · rw [List.concat_eq_append] at hz
    subst hz
    rw [← List.append_assoc] at h
    cases hv with
    | ans =>
        have hans : (front ++ ['a', 'n']) ++ ['s'] = front ++ ansName := by simp [ansName]
        obtain ⟨-, hd⟩ := List.append_inj' (hans.trans h) rfl
        cases hd
        exact absurd (hrun 's' (List.mem_append_right z List.mem_cons_self)) (by decide)
    | @char c hc =>
        refine ⟨by simp [ansName], ?_⟩
        obtain ⟨rfl, -⟩ := List.append_inj' h rfl
        by_cases hz : z = []
        · exact .inl (by rw [hz, List.append_nil])
        · obtain ⟨e, he⟩ := Option.ne_none_iff_exists'.1 fun hnone =>
            hz (List.getLast?_eq_none_iff.1 hnone)
          refine .inr ⟨e, by rw [List.getLast?_append_of_ne_nil x hz]; exact he, ?_⟩
          exact hrun e (List.mem_append_left _ (List.mem_of_getLast? he))

theorem IsFilling.of_ans (h : front ++ v = x ++ ansName) : front = x := by
  cases hv with
  | ans => exact List.append_cancel_right h
  | char hc =>
      have hans : x ++ ansName = (x ++ ['a', 'n']) ++ ['s'] := by simp [ansName]
      obtain ⟨-, hs⟩ := List.append_inj' (h.trans hans) rfl
      cases hs
      exact absurd hc (by decide)

/-- Where a text ends with a value and with an operand, the operand is the value, or a sign with the
value, or it goes on in front of the value. -/
theorem IsFilling.of_fillsBlank {o : Text} (ho : FillsBlank o) (h : front ++ v = x ++ o) :
    front = x ∨ v ≠ ansName ∧ front = x ++ ['-'] ∨
      ∃ c ∈ front.getLast?, isPlainNumeralChar c = true := by
  cases ho with
  | ans => exact .inl (hv.of_ans h)
  | number hne hrun =>
      obtain ⟨-, hfront | hlast⟩ := hv.of_run hne hrun h
      · exact .inl hfront
      · exact .inr (.inr hlast)
  | negative hne hrun =>
      rw [List.append_cons] at h
      obtain ⟨hans, hfront | hlast⟩ := hv.of_run hne hrun h
      · exact .inr (.inl ⟨hans, hfront⟩)
      · exact .inr (.inr hlast)

theorem IsFilling.of_isHalf {half : Text} (hh : IsHalf half) (h : front ++ v = x ++ half) :
    front = x ∨ ∃ c ∈ front.getLast?, isPlainNumeralChar c = true := by
  cases hh with
  | blank =>
      obtain ⟨c, hc, hvalue⟩ := hv.exists_getLast? front
      rw [h, List.getLast?_concat] at hc
      cases hc
      exact absurd hvalue (by decide)
  | ans => exact .inl (hv.of_ans h)
  | number hne hrun => exact (hv.of_run hne hrun h).2

end ends

/-! ### What is recognised behind a value -/

/-- A template is recognised at the end of `front ++ v`, with `x` in front of it: the value is the
operand behind its mark, alone or with a sign, or its denominator, or the end of a longer number. -/
inductive Recognised (front v x : Text) : Template → Prop where
  | marked {f : Template} {mark : Text} (hmark : f.mark? = some mark) (h : front = x ++ mark) :
      Recognised front v x f
  | signed {f : Template} {mark : Text} (hmark : f.mark? = some mark) (hv : v ≠ ansName)
      (h : front = x ++ mark ++ ['-']) : Recognised front v x f
  | denominator {numerator : Text} (hn : IsHalf numerator) (h : front = x ++ numerator ++ ['/']) :
      Recognised front v x .fraction
  | lengthened {f : Template} {c d : Char} {w : Text} (hc : c ∈ front.getLast?)
      (hplain : isPlainNumeralChar c = true) (htext : f.text = w ++ [d] ++ [blankSymbol])
      (hd : isPlainNumeralChar d = false) : Recognised front v x f

theorem exists_recognised (hv : IsFilling v) {start : Nat}
    (h : Filled.before? (front ++ v) = some (start, template)) :
    ∃ x, (front ++ v).take start = x ∧ Recognised front v x template := by
  obtain ⟨x, back, ht, rfl, hfills⟩ := Filled.exists_of_before? (hv.withoutFinalBreak front) h
  refine ⟨x, by rw [ht, List.take_left], ?_⟩
  have hmarked {template : Template} {mark o : Text} (hmark : template.mark? = some mark)
      (ho : FillsBlank o) (hback : back = mark ++ o) : Recognised front v x template := by
    rw [hback, ← List.append_assoc] at ht
    rcases hv.of_fillsBlank ho ht with h | ⟨hans, h⟩ | ⟨c, hc, hplain⟩
    · exact .marked hmark h
    · exact .signed hmark hans h
    · have key : Template.markEnds.all (fun c => isPlainNumeralChar c = false) = true := by decide
      obtain ⟨w, d, hd, rfl⟩ := Template.exists_of_mark? hmark
      exact .lengthened hc hplain (Template.text_of_mark? hmark) (Template.forall_markEnds key hd)
  -- a text that ends with a value ends with nothing else
  have hnot {w : Text} {d : Char} (hback : back = w ++ [d])
      (hd : isPlainNumeralChar d = false ∧ d ≠ 's') : Recognised front v x template := by
    obtain ⟨c, hc, hvalue⟩ := hv.exists_getLast? front
    rw [ht, hback, ← List.append_assoc, List.getLast?_concat] at hc
    cases hc
    rw [hd.1] at hvalue
    exact absurd (hvalue.resolve_left Bool.false_ne_true) hd.2
  cases hfills with
  | circular f hne hparens => exact hnot rfl (by decide)
  | root ho => exact hmarked rfl ho rfl
  | marker m ho => exact hmarked rfl ho rfl
  | square ho => exact hnot rfl (by decide)
  | cube ho => exact hnot rfl (by decide)
  | @reciprocal o ho => exact hnot (List.append_assoc o ['⁻'] ['¹']).symm (by decide)
  | factorial ho => exact hnot rfl (by decide)
  | fraction hn hd =>
      rw [← List.append_assoc, ← List.append_assoc] at ht
      rcases hv.of_isHalf hd ht with h | ⟨c, hc, hplain⟩
      · exact .denominator hn h
      · exact .lengthened (w := [blankSymbol]) hc hplain rfl (by decide)

theorem Recognised.getLast?_ne (h : Recognised front v x template) :
    front.getLast? ≠ some '(' := by
  intro hc
  cases h with
  | marked hmark h =>
      obtain ⟨w, d, hd, rfl⟩ := Template.exists_of_mark? hmark
      rw [h, ← List.append_assoc, List.getLast?_concat] at hc
      cases hc
      exact absurd hd (by decide)
  | signed hmark hv h =>
      rw [h, List.getLast?_concat] at hc
      cases hc
  | denominator hn h =>
      rw [h, List.getLast?_concat] at hc
      cases hc
  | lengthened hlast hplain =>
      rw [Option.mem_def.1 hlast] at hc
      cases hc
      exact absurd hplain (by decide)

end PocketCalculator
