import PocketCalculator.Proofs.Evaluation.Chains

/-! # What the checks for completeness look at

Only the characters that are no blanks count for the parentheses and for the halves of a fraction
(`incompleteness?_of_filter`).  An empty circular function is found as it is written, so there a
blank does count (`hasBlank_iff`).

Two expressions that are complete alike and have the same tree value have the same outcome
(`evaluate_congr`). -/

namespace PocketCalculator

variable {t t' before before' : Text}

/-! ### Halves of fractions -/

/-- The first character of a text that is no blank. -/
def firstInk (t : Text) : Option Char :=
  t.find? fun c => !isBlank c

theorem head?_dropWhile_isBlank (t : Text) : (t.dropWhile isBlank).head? = firstInk t := by
  rw [firstInk, List.find?_eq_head?_dropWhile_not]
  simp only [Bool.not_not]

theorem firstInk_filter (t : Text) : firstInk (t.filter fun c => !isBlank c) = firstInk t := by
  rw [firstInk, List.find?_filter, firstInk]
  simp

theorem lacksNumerator_eq (before : Text) : lacksNumerator before =
    (firstInk before).all fun c => c == '(' || (Token.ofChar? c).any Token.isOperator := by
  rw [← head?_dropWhile_isBlank, lacksNumerator]
  cases before.dropWhile isBlank <;> rfl

theorem lacksDenominator_eq (behind : Text) : lacksDenominator behind =
    (firstInk behind).all fun c =>
      c == ')' || (c != '-' && (Token.ofChar? c).any Token.isOperator) := by
  rw [← head?_dropWhile_isBlank, lacksDenominator]
  cases behind.dropWhile isBlank <;> rfl

theorem emptyHalfBehind_congr (h : firstInk before = firstInk before') (t : Text) :
    emptyHalfBehind before t = emptyHalfBehind before' t := by
  induction t generalizing before before' with
  | nil => rfl
  | cons c t ih =>
      have hc : firstInk (c :: before) = firstInk (c :: before') := by
        rw [firstInk, firstInk, List.find?_cons, List.find?_cons, ← firstInk, ← firstInk, h]
      rw [emptyHalfBehind, emptyHalfBehind, ih hc, lacksNumerator_eq, lacksNumerator_eq, h]

theorem emptyHalfBehind_filter (before t : Text) :
    emptyHalfBehind before (t.filter fun c => !isBlank c) = emptyHalfBehind before t := by
  induction t generalizing before with
  | nil => rfl
  | cons c t ih =>
      cases hb : isBlank c with
      | true =>
          have hc : (c == '/') = false := by
            rw [beq_eq_false_iff_ne]
            rintro rfl
            cases hb
          have hink : firstInk (c :: before) = firstInk before := by
            rw [firstInk, List.find?_cons_of_neg (by simp [hb]), firstInk]
          rw [List.filter_cons_of_neg (by simp [hb]), ih, emptyHalfBehind, hc, Bool.false_and,
            Bool.false_or, emptyHalfBehind_congr hink]
      | false =>
          rw [List.filter_cons_of_pos (by simp [hb]), emptyHalfBehind, emptyHalfBehind, ih,
            lacksDenominator_eq, firstInk_filter, ← lacksDenominator_eq]

/-! ### Outcomes -/

theorem incompleteness?_congr (hb : hasBlank t = hasBlank t') (ho : t.count '(' = t'.count '(')
    (hc : t.count ')' = t'.count ')') (hh : emptyHalfBehind [] t = emptyHalfBehind [] t') :
    incompleteness? t = incompleteness? t' := by
  rw [incompleteness?, incompleteness?, hb, ho, hc, hh]

/-- Blanks count for the open slots only. -/
theorem incompleteness?_of_filter
    (h : t.filter (fun c => !isBlank c) = t'.filter fun c => !isBlank c)
    (hb : hasBlank t = hasBlank t') : incompleteness? t = incompleteness? t' := by
  have hcount {c : Char} (hc : isBlank c = false) : t.count c = t'.count c := by
    rw [← List.count_filter (p := fun c => !isBlank c) (l := t) (by simp [hc]), h,
      List.count_filter (by simp [hc])]
  refine incompleteness?_congr hb (hcount (by decide)) (hcount (by decide)) ?_
  rw [← emptyHalfBehind_filter [] t, h, emptyHalfBehind_filter]

/-- The outcome is decided by the checks and by the value of the tree. -/
theorem evaluate_congr {ans : Option Float} (hi : incompleteness? t = incompleteness? t')
    (hv : treeValue ans t = treeValue ans t') :
    (evaluate ans t).mapError Failure.fault = (evaluate ans t').mapError Failure.fault := by
  rw [evaluate_eq, evaluate_eq, hi, hv]
  cases incompleteness? t' with
  | some fault => rfl
  | none => cases treeValue ans t' <;> rfl

end PocketCalculator
