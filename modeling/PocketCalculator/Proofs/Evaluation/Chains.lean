import PocketCalculator.Proofs.Evaluation.Reading
import PocketCalculator.Proofs.Expr.Chain
import PocketCalculator.Proofs.Template.Slots

/-! # Evaluating chains

The text of a chain of finite doubles is complete, and its value is that of the two passes over the
doubles: `Chain.evaluate_text`.  The negative zero is left out, since its plain text has no sign. -/

namespace PocketCalculator

/-! ### Empty halves of fractions -/

theorem lacksNumerator_cons {c : Char} (h : isPlainNumeralChar c = true) (before : Text) :
    lacksNumerator (c :: before) = false := by
  have key : plainNumeralChars.all (fun c => isBlank c = false ∧ c ≠ '(' ∧
      (Token.ofChar? c).any Token.isOperator = false) = true := by decide
  obtain ⟨hb, ho, hop⟩ := forall_plain key h
  rw [lacksNumerator, List.dropWhile_cons_of_neg (by simp [hb])]
  simp [ho, hop]

theorem lacksDenominator_cons {c : Char} (h : c = '-' ∨ isPlainNumeralChar c = true)
    (behind : Text) : lacksDenominator (c :: behind) = false := by
  have key : ('-' :: plainNumeralChars).all (fun c => isBlank c = false ∧ c ≠ ')' ∧
      (c != '-' && (Token.ofChar? c).any Token.isOperator) = false) = true := by decide
  have hc : c ∈ '-' :: plainNumeralChars := List.mem_cons.2 (h.imp_right mem_plainNumeralChars)
  obtain ⟨hb, ho, hop⟩ := of_decide_eq_true (List.all_eq_true.1 key c hc)
  rw [lacksDenominator, List.dropWhile_cons_of_neg (by simp [hb])]
  simp [ho, hop]

theorem emptyHalfBehind_append {u : Text} (hu : '/' ∉ u) (before t : Text) :
    emptyHalfBehind before (u ++ t) = emptyHalfBehind (u.reverse ++ before) t := by
  induction u generalizing before with
  | nil => rfl
  | cons c u ih =>
      rw [List.mem_cons, not_or] at hu
      have hc : (c == '/') = false := beq_eq_false_iff_ne.2 (Ne.symm hu.1)
      rw [List.cons_append, emptyHalfBehind, hc, Bool.false_and, Bool.false_or, ih hu.2,
        List.reverse_cons, List.append_assoc]
      rfl

namespace Chain

/-! ### Chains are complete -/

theorem slash_not_mem_numeral (s : Shown) : '/' ∉ s.numeral.text :=
  s.numeral.not_mem_text (by decide) (by decide)

theorem exists_numeral_cons (s : Shown) :
    ∃ c u, s.numeral.text = c :: u ∧ (c = '-' ∨ isPlainNumeralChar c = true) := by
  rw [Numeral.text]
  split
  · exact ⟨'-', _, rfl, .inl rfl⟩
  · obtain ⟨c, u, hu⟩ := List.exists_cons_of_ne_nil s.numeral.body_ne_nil
    exact ⟨c, u, hu, .inr (s.plain c (hu ▸ List.mem_cons_self))⟩

theorem exists_numeral_reverse (s : Shown) :
    ∃ c u, s.numeral.text.reverse = c :: u ∧ isPlainNumeralChar c = true := by
  have hne : s.numeral.body.reverse ≠ [] := fun h =>
    s.numeral.body_ne_nil (List.reverse_eq_nil_iff.1 h)
  obtain ⟨c, u, hu⟩ := List.exists_cons_of_ne_nil hne
  have hc : c ∈ s.numeral.body := List.mem_reverse.1 (hu ▸ List.mem_cons_self)
  rw [Numeral.text]
  split
  · refine ⟨c, u ++ ['-'], ?_, s.plain c hc⟩
    rw [List.reverse_cons, hu]
    rfl
  · exact ⟨c, u, hu, s.plain c hc⟩

theorem emptyHalfBehind_textBehind {c : Char} (hc : isPlainNumeralChar c = true) (before : Text)
    (more : List (Operator × Shown)) :
    emptyHalfBehind (c :: before) (textBehind (values more)) = false := by
  induction more generalizing c before with
  | nil => rfl
  | cons q more ih =>
      obtain ⟨op, s⟩ := q
      obtain ⟨d, u, hu, hd⟩ := exists_numeral_cons s
      obtain ⟨d', u', hu', hd'⟩ := exists_numeral_reverse s
      have hbehind : lacksDenominator (s.numeral.text ++ textBehind (values more)) = false := by
        rw [hu]
        exact lacksDenominator_cons hd _
      rw [textBehind_cons, emptyHalfBehind, lacksNumerator_cons hc, hbehind, Bool.or_false,
        Bool.and_false, Bool.false_or, emptyHalfBehind_append (slash_not_mem_numeral s), hu']
      exact ih hd' _

theorem incompleteness?_text (s : Shown) (more : List (Operator × Shown)) :
    incompleteness? (text s.value (values more)) = none := by
  have hmem {c : Char} (hc : isChainChar c = false) : c ∉ text s.value (values more) := by
    intro h
    rw [isChainChar_of_mem_text s h] at hc
    cases hc
  have hhalf : emptyHalfBehind [] (text s.value (values more)) = false := by
    obtain ⟨c, u, hu, hc⟩ := exists_numeral_reverse s
    rw [text, ← s.text_numeral, emptyHalfBehind_append (slash_not_mem_numeral s), hu]
    exact emptyHalfBehind_textBehind hc _ more
  have hcircular : ∀ p ∈ SlotKind.emptyCircular false ++ SlotKind.emptyCircular true, '(' ∈ p := by
    decide
  have hblank : hasBlank (text s.value (values more)) = false :=
    hasBlank_eq_false (hmem (by decide)) fun p hp hs => hmem (by decide) (hs (hcircular p hp))
  rw [incompleteness?, hblank, List.count_eq_zero.2 (hmem (c := '(') (by decide)),
    List.count_eq_zero.2 (hmem (c := ')') (by decide)), hhalf]
  rfl

/-! ### The value of a chain -/

theorem treeValue_text (ans : Option Float) (s : Shown) (more : List (Operator × Shown)) :
    treeValue ans (text s.value (values more)) =
      if hasZeroDivisor (values more) then .error .divisionByZero
      else .ok (twoPasses s.value (values more)) := by
  rw [treeValue_of_ofChars (ofChars_text s more), withProducts_tokens, ofTokens_tokens]
  exact (Expr.value_toFraction _).trans (Expr.value_ofChain rfl (valued_literals more))

theorem evaluate_shown (ans : Option Float) (s : Shown) (more : List (Operator × Shown)) :
    evaluate ans (text s.value (values more)) =
      if hasZeroDivisor (values more) then
        .error ⟨.divisionByZero, some (text s.value (values more))⟩
      else .ok (twoPasses s.value (values more)) := by
  rw [evaluate_eq, incompleteness?_text, treeValue_text]
  dsimp only
  split <;> rfl

theorem exists_values {more : List (Operator × Float)}
    (h : ∀ q ∈ more, q.2.isFinite = true ∧ q.2 ≠ -0.0) :
    ∃ shown : List (Operator × Shown), values shown = more := by
  induction more with
  | nil => exact ⟨[], rfl⟩
  | cons q more ih =>
      obtain ⟨hf, h0⟩ := h q List.mem_cons_self
      obtain ⟨s, hs⟩ := exists_shown hf h0
      obtain ⟨shown, rfl⟩ := ih fun r hr => h r (List.mem_cons_of_mem q hr)
      refine ⟨(q.1, s) :: shown, ?_⟩
      rw [values, List.map_cons, hs]
      rfl

/-- The text of a chain of finite doubles evaluates to what the two passes give, and to the division
by zero exactly when the first pass comes across one. -/
theorem evaluate_text (ans : Option Float) {x : Float} {more : List (Operator × Float)}
    (hx : x.isFinite = true ∧ x ≠ -0.0) (hm : ∀ q ∈ more, q.2.isFinite = true ∧ q.2 ≠ -0.0) :
    evaluate ans (text x more) =
      if hasZeroDivisor more then .error ⟨.divisionByZero, some (text x more)⟩
      else .ok (twoPasses x more) := by
  obtain ⟨s, rfl⟩ := exists_shown hx.1 hx.2
  obtain ⟨shown, rfl⟩ := exists_values hm
  exact evaluate_shown ans s shown

/-- A minus behind an operator is a sign, and a quotient by zero is found in a longer chain. -/
theorem evaluate_text_signs :
    evaluate none "3--2÷4".toList = .ok 3.5 ∧
      evaluate none "6/-0.5÷0×2".toList =
        .error ⟨.divisionByZero, some "6/-0.5÷0×2".toList⟩ := by
  constructor
  · have h := @evaluate_text none 3 [(.additive .minus, -2), (.multiplicative .divide, 4)]
      (by decide) (by decide)
    have ht : text 3 [(.additive .minus, -2), (.multiplicative .divide, 4)] =
        "3--2÷4".toList := by decide
    rw [ht, if_neg (by decide)] at h
    rw [h]
    exact congrArg Except.ok (by decide)
  · have h := @evaluate_text none 6 [(.multiplicative .slash, -0.5), (.multiplicative .divide, 0),
      (.multiplicative .times, 2)] (by decide) (by decide)
    have ht : text 6 [(.multiplicative .slash, -0.5), (.multiplicative .divide, 0),
        (.multiplicative .times, 2)] = "6/-0.5÷0×2".toList := by decide
    rw [ht, if_pos (by decide)] at h
    exact h

end Chain
end PocketCalculator
