import PocketCalculator.Proofs.Template.Filled

/-! # What is recognised as a filled template

What is recognised at the end of a text is a filled template (`Filled.exists_of_before?`).  This
module has the other direction: a text that ends with an operand between a mark and the cursor, or
behind the bar of a fraction, is recognised (`Filled.before?_ne_none_of_mark`,
`Filled.before?_ne_none_of_bar`), and so is one that ends with a suffix behind a number.  There a
minus belongs to the number unless another number or a parenthesis ends in front of it
(`Filled.before?_minus`). -/

namespace PocketCalculator

/-! ### Marks and suffixes -/

namespace Template

/-- What a template has in front of its operand, when it has nothing behind it. -/
def mark? : Template → Option Text
  | root => some [rootSymbol]
  | marker m => some m.text
  | _ => none

/-- What a template has behind its operand, when it has nothing in front of it. -/
def suffix? : Template → Option Suffix
  | square => some .square
  | cube => some .cube
  | reciprocal => some .reciprocal
  | factorial => some .factorial
  | _ => none

variable {template : Template} {mark : Text} {s : Suffix}

theorem text_of_mark? (h : template.mark? = some mark) : template.text = mark ++ [blankSymbol] := by
  cases template with
  | root | marker m =>
      cases h
      rfl
  | _ => cases h

theorem blank_not_mem_mark (h : template.mark? = some mark) : blankSymbol ∉ mark := by
  cases template with
  | root =>
      cases h
      decide
  | marker m => cases m <;> cases h <;> decide
  | _ => cases h

/-- The characters that marks end with. -/
def markEnds : Text :=
  [rootSymbol, 'g', 'n', '^']

theorem forall_markEnds {P : Char → Prop} [DecidablePred P]
    (h : markEnds.all (fun c => P c) = true) {c : Char} (hc : c ∈ markEnds) : P c :=
  of_decide_eq_true (List.all_eq_true.1 h c hc)

theorem exists_of_mark? (h : template.mark? = some mark) :
    ∃ w, ∃ c ∈ markEnds, mark = w ++ [c] := by
  cases template with
  | root =>
      cases h
      exact ⟨[], rootSymbol, by decide, rfl⟩
  | marker m =>
      cases h
      cases m with
      | log => exact ⟨['l', 'o'], 'g', by decide, rfl⟩
      | ln => exact ⟨['l'], 'n', by decide, rfl⟩
      | tenPower => exact ⟨['×', '1', '0'], '^', by decide, rfl⟩
      | exp => exact ⟨['e'], '^', by decide, rfl⟩
  | _ => cases h

theorem text_of_suffix? (h : template.suffix? = some s) :
    template.text = blankSymbol :: s.text := by
  cases template with
  | square | cube | reciprocal | factorial =>
      cases h
      rfl
  | _ => cases h

end Template

namespace Filled

variable {run r : Text} {template : Template} {mark half : Text} {s : Suffix}

/-! ### Operands -/

theorem after?_ansName_eq_none {c : Char} (hc : c ≠ 's') (r : Text) :
    Text.after? ansName.reverse (c :: r) = none :=
  if_neg hc.symm

theorem operandLength?_ans (r : Text) :
    operandLength? (ansName.reverse ++ r) = some ansName.length := by
  rw [operandLength?, Text.after?_eq_some_iff.2 rfl]

theorem operandLength?_eq_none {c : Char} (hs : c ≠ 's') (hc : isPlainNumeralChar c = false)
    (r : Text) : operandLength? (c :: r) = none := by
  rw [operandLength?, after?_ansName_eq_none hs, List.takeWhile_cons_of_neg (by simp [hc])]
  rfl

section run

variable (hne : run ≠ []) (hrun : ∀ c ∈ run, isPlainNumeralChar c = true)
include hne hrun

theorem after?_run {c : Char} (hc : isPlainNumeralChar c = false) (head r : Text) :
    Text.after? (c :: head) (run.reverse ++ r) = none := by
  obtain ⟨d, w, hw⟩ := List.exists_cons_of_ne_nil (List.reverse_ne_nil_iff.2 hne)
  have hd : isPlainNumeralChar d = true :=
    hrun d (List.mem_reverse.1 (hw ▸ List.mem_cons_self))
  rw [hw]
  refine if_neg ?_
  rintro rfl
  rw [hd] at hc
  cases hc

theorem after?_ansName_run (r : Text) : Text.after? ansName.reverse (run.reverse ++ r) = none :=
  after?_run hne hrun (by decide) _ r

theorem runs_of_run (hr : ∀ c ∈ r.head?, isPlainNumeralChar c = false) :
    (run.reverse ++ r).takeWhile isPlainNumeralChar = run.reverse ∧
      (run.reverse ++ r).dropWhile isPlainNumeralChar = r ∧ run.reverse ≠ [] := by
  obtain ⟨htake, hdrop⟩ := Text.takeWhile_append
    (fun c hc => hrun c (List.mem_reverse.1 hc)) hr
  exact ⟨htake, hdrop, List.reverse_ne_nil_iff.2 hne⟩

theorem operandLength?_number
    (hr : ∀ c ∈ r.head?, isPlainNumeralChar c = false ∧ c ≠ '-' ∧ c ≠ ')') :
    operandLength? (run.reverse ++ r) = some run.length := by
  obtain ⟨htake, hdrop, hne'⟩ := runs_of_run hne hrun fun c hc => (hr c hc).1
  rw [operandLength?, after?_ansName_run hne hrun, htake, hdrop]
  dsimp only
  rw [if_neg hne', List.length_reverse]
  split
  · exact absurd rfl (hr _ rfl).2.1
  · exact absurd rfl (hr _ rfl).2.2
  · rfl

/-- A minus in front of a number belongs to it unless another number or a parenthesis ends there. -/
theorem operandLength?_minus (r : Text) : operandLength? (run.reverse ++ '-' :: r) =
    if r.head?.any endsOperand then some run.length else some (run.length + 1) := by
  obtain ⟨htake, hdrop, hne'⟩ := runs_of_run hne hrun (r := '-' :: r) fun c hc => by
    cases hc
    decide
  rw [operandLength?, after?_ansName_run hne hrun, htake, hdrop]
  dsimp only
  rw [if_neg hne', List.length_reverse]
  rfl

end run

theorem markedLength?_eq_some {o : Text}
    (ho : operandLength? (o.reverse ++ (mark.reverse ++ r)) = some o.length) :
    markedLength? mark (o.reverse ++ (mark.reverse ++ r)) = some (o.length + mark.length) := by
  have hmark : Text.after? mark.reverse ((o.reverse ++ (mark.reverse ++ r)).drop o.length) =
      some r := by
    rw [← List.length_reverse, List.drop_left]
    exact Text.after?_eq_some_iff.2 rfl
  rw [markedLength?, ho]
  simp only [Option.bind_eq_bind, Option.bind_some, hmark]
  rfl

/-! ### Suffixes -/

theorem circular?_eq_none {c : Char} (hc : c ≠ ')') (r : Text) : circular? (c :: r) = none := by
  have hclosing : Text.after? [')'] (c :: r) = none := if_neg hc.symm
  rw [circular?, hclosing]
  rfl

theorem markedLength?_eq_none (hr : operandLength? r = none) (mark : Text) :
    markedLength? mark r = none := by
  rw [markedLength?, hr]
  rfl

theorem suffixedLength?_eq_none (hr : Text.after? s.text.reverse r = none) :
    suffixedLength? s r = none := by
  rw [suffixedLength?, hr]
  rfl

theorem suffixedLength?_append (s : Suffix) (r : Text) :
    suffixedLength? s (s.text.reverse ++ r) =
      (operandLength? r).map (· + s.text.length) := by
  rw [suffixedLength?, Text.after?_eq_some_iff.2 rfl]
  simp only [Option.bind_eq_bind, Option.bind_some]
  cases operandLength? r <;> rfl

theorem before?_suffix (h : template.suffix? = some s) {t : Text} {n : Nat}
    (hn : operandLength? t.reverse = some n) :
    before? (t ++ s.text) = some (t.length - n, template) := by
  have hlast : (t ++ s.text).getLast? ≠ some '\n' := by
    cases s <;> simp [Suffix.text, inverseMark]
  have hcandidates : (candidates (s.text.reverse ++ t.reverse)).findSome? id =
      some (template, n + s.text.length) := by
    have hcircular : circular? (s.text.reverse ++ t.reverse) = none := by
      cases s <;> exact circular?_eq_none (by decide) _
    have hmarked := markedLength?_eq_none (r := s.text.reverse ++ t.reverse) (by
      cases s <;> exact operandLength?_eq_none (by decide) (by decide) _)
    have hother {s' : Suffix} (hs' : s' ≠ s) :
        suffixedLength? s' (s.text.reverse ++ t.reverse) = none := by
      refine suffixedLength?_eq_none ?_
      cases s <;> cases s' <;> simp_all [Suffix.text, inverseMark, Text.after?]
    have hs := suffixedLength?_append s t.reverse
    rw [hn] at hs
    cases template with
    | square | cube | reciprocal | factorial =>
        cases h
        simp [candidates, hcircular, hmarked, hother, hs]
    | _ => cases h
  rw [before?, withoutFinalBreak, if_neg hlast]
  dsimp only
  rw [List.reverse_append, hcandidates, List.length_append, Option.map_some, Nat.add_sub_add_right]

/-- In front of a number with a suffix, a minus goes with the operand unless another number or a
parenthesis ends in front of it. -/
theorem before?_minus (h : template.suffix? = some s) (hne : run ≠ [])
    (hrun : ∀ c ∈ run, isPlainNumeralChar c = true) (front : Text) :
    before? (front ++ '-' :: (run ++ s.text)) =
      some (if front.getLast?.any endsOperand then front.length + 1 else front.length,
        template) := by
  have hn : operandLength? (front ++ '-' :: run).reverse =
      some (if front.getLast?.any endsOperand then run.length else run.length + 1) := by
    rw [List.reverse_append, List.reverse_cons, List.append_assoc, List.singleton_append,
      operandLength?_minus hne hrun, List.head?_reverse, ← apply_ite]
  have ht := before?_suffix h hn
  rw [List.append_assoc, List.cons_append] at ht
  rw [ht, List.length_append, List.length_cons]
  split
  · rw [← Nat.add_sub_cancel (front.length + 1) run.length]
    congr 3
    omega
  · rw [Nat.add_sub_cancel]

/-! ### Marks and bars -/

theorem before?_ne_none {t : Text} {candidate : Template × Nat} (hbreak : withoutFinalBreak t = t)
    (h : some candidate ∈ candidates t.reverse) : before? t ≠ none := by
  rw [before?, hbreak]
  dsimp only
  rw [ne_eq, Option.map_eq_none_iff, List.findSome?_eq_none_iff]
  exact fun hnone => Option.some_ne_none candidate (hnone _ h)

theorem mem_candidates_of_mark (h : template.mark? = some mark) {n : Nat}
    (hn : markedLength? mark r = some n) : some (template, n) ∈ candidates r := by
  cases template with
  | root =>
      cases h
      simp [candidates, hn]
  | marker m => cases m <;> cases h <;> simp [candidates, hn]
  | _ => cases h

theorem mem_candidates_of_fraction {n : Nat} (hn : fractionLength? r = some n) :
    some (.fraction, n) ∈ candidates r := by
  simp [candidates, hn]

/-- An operand behind a mark is recognised. -/
theorem before?_ne_none_of_mark (h : template.mark? = some mark) {o : Text} (ho : FillsBlank o)
    {front : Text} (hbreak : withoutFinalBreak (front ++ mark ++ o) = front ++ mark ++ o) :
    before? (front ++ mark ++ o) ≠ none := by
  have hlast : ∀ c ∈ (mark.reverse ++ front.reverse).head?, endsOperand c = false ∧ c ≠ '-' := by
    have key : Template.markEnds.all (fun c => endsOperand c = false ∧ c ≠ '-') = true := by decide
    obtain ⟨w, d, hd, rfl⟩ := Template.exists_of_mark? h
    intro c hc
    rw [List.reverse_append] at hc
    cases hc
    exact Template.forall_markEnds key hd
  have hn : operandLength? (o.reverse ++ (mark.reverse ++ front.reverse)) = some o.length := by
    cases ho with
    | ans => exact operandLength?_ans _
    | number hne hrun =>
        refine operandLength?_number hne hrun fun c hc => ?_
        obtain ⟨hoperand, hminus⟩ := hlast c hc
        rw [endsOperand, Bool.or_eq_false_iff, beq_eq_false_iff_ne] at hoperand
        exact ⟨hoperand.1, hminus, hoperand.2⟩
    | @negative run hne hrun =>
        have hany : (mark.reverse ++ front.reverse).head?.any endsOperand = false := by
          cases hc : (mark.reverse ++ front.reverse).head? with
          | none => rfl
          | some c => exact (hlast c hc).1
        rw [List.reverse_cons, List.append_assoc, List.singleton_append,
          operandLength?_minus hne hrun, hany]
        rfl
  have hmarked := markedLength?_eq_some hn
  rw [← List.reverse_append, ← List.reverse_append] at hmarked
  exact before?_ne_none hbreak (mem_candidates_of_mark h hmarked)

theorem exists_halfLength? (h : IsHalf half) (r : Text) :
    ∃ n, halfLength? (half.reverse ++ r) = some n := by
  cases h with
  | blank => exact ⟨1, rfl⟩
  | ans => exact ⟨ansName.length, rfl⟩
  | number hne hrun =>
      rw [halfLength?, after?_run hne hrun (by decide), after?_ansName_run hne hrun]
      dsimp only
      split
      · rename_i hnil
        rw [List.takeWhile_append_of_pos fun c hc => hrun c (List.mem_reverse.1 hc)] at hnil
        exact absurd (List.append_eq_nil_iff.1 hnil).1 (List.reverse_ne_nil_iff.2 hne)
      · exact ⟨_, rfl⟩

theorem halfLength?_bar (h : IsHalf half) (r : Text) :
    halfLength? (half.reverse ++ '/' :: r) = some half.length := by
  cases h with
  | blank => rfl
  | ans => rfl
  | number hne hrun =>
      obtain ⟨htake, -, hne'⟩ := runs_of_run hne hrun (r := '/' :: r) fun c hc => by
        cases hc
        decide
      rw [halfLength?, after?_run hne hrun (by decide), after?_ansName_run hne hrun, htake]
      dsimp only
      split
      · rename_i hnil
        exact absurd hnil hne'
      · rw [List.length_reverse]

/-- Two halves with a bar between them are recognised, unless the last one is blank. -/
theorem before?_ne_none_of_bar {numerator denominator front : Text} (hn : IsHalf numerator)
    (hd : IsHalf denominator) (hb : denominator ≠ [blankSymbol])
    (hbreak : withoutFinalBreak (front ++ numerator ++ ['/'] ++ denominator) =
      front ++ numerator ++ ['/'] ++ denominator) :
    before? (front ++ numerator ++ ['/'] ++ denominator) ≠ none := by
  have hr : (front ++ numerator ++ ['/'] ++ denominator).reverse =
      denominator.reverse ++ '/' :: (numerator.reverse ++ front.reverse) := by
    simp
  obtain ⟨m, hm⟩ := exists_halfLength? hn front.reverse
  have hbar : Text.after? ['/'] ((denominator.reverse ++
      '/' :: (numerator.reverse ++ front.reverse)).drop denominator.length) =
        some (numerator.reverse ++ front.reverse) := by
    rw [← List.length_reverse, List.drop_left]
    rfl
  have hblank : (denominator.reverse ++ '/' :: (numerator.reverse ++ front.reverse)).take
      (denominator.length + 1 + m) ≠ Template.fraction.text.reverse := by
    intro htake
    have hstarts := List.take_prefix (denominator.length + 1 + m)
      (denominator.reverse ++ '/' :: (numerator.reverse ++ front.reverse))
    obtain ⟨c, w, hw⟩ := List.exists_cons_of_ne_nil (List.reverse_ne_nil_iff.2 hd.ne_nil)
    rw [htake, hw] at hstarts
    obtain ⟨rfl, -⟩ := List.cons_prefix_cons.1 hstarts
    exact hd.blank_not_mem hb (List.mem_reverse.1 (hw ▸ List.mem_cons_self))
  have hfraction : fractionLength? (front ++ numerator ++ ['/'] ++ denominator).reverse =
      some (denominator.length + 1 + m) := by
    rw [hr, fractionLength?, halfLength?_bar hd]
    simp only [Option.bind_eq_bind, Option.bind_some, hbar, hm]
    rw [if_neg hblank]
    rfl
  exact before?_ne_none hbreak (mem_candidates_of_fraction hfraction)

end Filled
end PocketCalculator
