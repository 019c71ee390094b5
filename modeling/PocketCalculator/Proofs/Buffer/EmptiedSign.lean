import PocketCalculator.Proofs.Buffer.Negation
import PocketCalculator.Proofs.Template.Recognition

/-! # The minus of an emptied operand

A deletion empties the template that ends in front of the cursor, and a minus at the beginning of
the operand goes with it.  A deletion takes this minus for the sign of the number unless a digit, a
point or a parenthesis ends in front of it; the scanner takes it for the sign unless any value does.
The two differ behind a blank, a suffix and the name of the last result, where the minus subtracts
and is lost.  `Buffer.emptied_minus` says so of all keyed texts, and `Buffer.emptied_minus_differs`
shows two of them. -/

namespace PocketCalculator

variable {front back run t : Text} {template : Template} {ts : List Token}

/-! ### Forms that begin with a minus -/

theorem Fills.of_minus (h : Fills template ('-' :: back)) : ∃ s run, template.suffix? = some s ∧
    back = run ++ s.text ∧ run ≠ [] ∧ ∀ c ∈ run, isPlainNumeralChar c = true := by
  have hnumber {run rest : Text} (hne : run ≠ []) (hrun : ∀ c ∈ run, isPlainNumeralChar c = true) :
      '-' :: back ≠ run ++ rest := by
    intro h
    obtain ⟨c, w, rfl⟩ := List.exists_cons_of_ne_nil hne
    obtain ⟨rfl, -⟩ := List.cons.inj h
    exact absurd (hrun _ List.mem_cons_self) (by decide)
  have hsuffixed {template : Template} {o : Text} {s : Suffix} (hs : template.suffix? = some s)
      (ho : FillsBlank o) (h : '-' :: back = o ++ s.text) : ∃ s run, template.suffix? = some s ∧
        back = run ++ s.text ∧ run ≠ [] ∧ ∀ c ∈ run, isPlainNumeralChar c = true := by
    cases ho with
    | ans => cases h
    | number hne hrun => exact absurd h (hnumber hne hrun)
    | @negative run hne hrun => exact ⟨s, run, hs, (List.cons.inj h).2, hne, hrun⟩
  generalize hback : '-' :: back = u at h
  cases h with
  | circular f => rcases f with ⟨_ | _ | _, _⟩ <;> cases hback
  | root => cases hback
  | marker m => cases m <;> cases hback
  | square ho => exact hsuffixed (s := .square) rfl ho hback
  | cube ho => exact hsuffixed (s := .cube) rfl ho hback
  | reciprocal ho => exact hsuffixed (s := .reciprocal) rfl ho hback
  | factorial ho => exact hsuffixed (s := .factorial) rfl ho hback
  | fraction hn hd =>
      cases hn with
      | blank => cases hback
      | ans => cases hback
      | number hne hrun =>
          rw [List.append_assoc] at hback
          exact absurd hback (hnumber hne hrun)

/-! ### Tokens -/

namespace Token

theorem Step.suffix (previous : Option Token) (s : Suffix) :
    Step previous s.text [.suffix s] [] := by
  cases s with
  | reciprocal => exact .head .reciprocal []
  | _ => exact .char rfl (Head.read?_cons_eq_none [] (by decide)) fun _ _ d hd => nomatch hd

theorem scan_blank_suffix (h : scan front = .ok ts) (s : Suffix) :
    scan (front ++ blankSymbol :: s.text) = .ok (ts ++ [.blank, .suffix s]) := by
  rw [scan_eq_ok_iff] at h ⊢
  have hfront : Scanned none front ts ([blankSymbol] ++ (s.text ++ [])) :=
    @Scanned.append none front [] (blankSymbol :: (s.text ++ [])) ts h fun c hc => by
      cases hc
      exact ⟨by decide, by decide⟩
  have hblank : Scanned none (front ++ [blankSymbol]) (ts ++ [.blank]) (s.text ++ []) :=
    hfront.snoc (.char rfl (Head.read?_cons_eq_none _ (by decide)) fun h => absurd h (by decide))
  have hsuffix := hblank.snoc (.suffix _ s)
  rwa [List.append_assoc, List.append_assoc] at hsuffix

/-- A minus in front of a number with a suffix is the sign of the number, or subtracts where a value
ends in front of it. -/
theorem scan_minus_number (hne : run ≠ []) (hrun : ∀ c ∈ run, isPlainNumeralChar c = true)
    {s : Suffix} (hk : Keyed (front ++ '-' :: (run ++ s.text))) : ∃ (ts : List Token) (n : Numeral),
      scan front = .ok ts ∧ n.body = run ∧
      (Buffer.endsWithValue front = false → n.negative = true ∧
        scan (front ++ '-' :: (run ++ s.text)) = .ok (ts ++ [.number n, .suffix s])) ∧
      (Buffer.endsWithValue front = true → n.negative = false ∧
        scan (front ++ '-' :: (run ++ s.text)) =
          .ok (ts ++ [.additive .minus, .number n, .suffix s])) := by
  obtain ⟨hfront, hback⟩ := (opens_cons (by decide) _).keyed hk
  obtain ⟨hminus, hback⟩ := (keyed_cons_iff (by decide)).1 hback
  have hkminus : Keyed ['-'] := (keyed_cons_iff (by decide)).2 ⟨hminus, keyed_nil⟩
  have hleft : ∀ c ∈ (front ++ ['-']).getLast?, isNumeralChar c = false := by
    intro c hc
    rw [List.getLast?_concat] at hc
    cases hc
    decide
  have hright : ∀ c ∈ s.text.head?, isNumeralChar c = false := by
    intro c hc
    cases s <;> cases hc <;> decide
  obtain ⟨ts, hts⟩ := exists_scan_of_keyed hfront
  obtain ⟨l, n, r, hscan, hn, hstanding, hr⟩ := exists_standing_at hne
    (fun c hc => isNumeralChar_of_plain (hrun c hc)) hleft hright (hfront.append hkminus) hback
  rw [scanned_iff.1 (.of_step (.suffix _ s))] at hr
  cases hr
  rw [List.append_assoc] at hscan
  refine ⟨ts, n, hts, hn, fun hvalue => ?_, fun hvalue => ?_⟩
  · rw [Buffer.endsWithValue_eq hfront hts, Bool.not_eq_false'] at hvalue
    obtain ⟨hneg, rfl⟩ := hstanding.of_signed rfl hts (takesSign_iff.2 hvalue)
    exact ⟨hneg, hscan⟩
  · rw [Buffer.endsWithValue_eq hfront hts, Bool.not_eq_true'] at hvalue
    obtain ⟨hneg, hl⟩ := hstanding.of_unsigned fun u us hu hus hsign => by
      obtain ⟨rfl, -⟩ := List.append_inj' hu rfl
      cases hts.symm.trans hus
      rw [takesSign_iff.1 hsign] at hvalue
      cases hvalue
    cases (scan_minus hts).symm.trans hl
    rw [List.append_assoc] at hscan
    exact ⟨hneg, hscan⟩

end Token

/-! ### Deletion -/

namespace Buffer

/-- A deletion that empties a template in a keyed text leaves what stands in front of the template
as it is.  Where a minus goes with the operand, no digit, no point and no parenthesis ends in front
of it.  If no value ends there, it is the sign of the number, and the tokens in front of the number
stay; behind any other value it subtracts and is a token of its own, which is lost. -/
theorem emptied_minus (hk : Keyed t) {start : Nat}
    (h : Filled.before? t = some (start, template)) : ∃ front back,
      t = front ++ back ∧ start = front.length ∧ Fills template back ∧
      (∀ b : Buffer, b.before = t → b.delete.text = front ++ template.text ++ b.after) ∧
      ∀ rest, back = '-' :: rest → ∃ (ts : List Token) (n : Numeral) (s : Suffix),
        rest = n.body ++ s.text ∧ template.suffix? = some s ∧
        (∀ c ∈ front.getLast?, Filled.endsOperand c = false) ∧
        (endsWithValue front = false → n.negative = true ∧
          Token.scan t = .ok (ts ++ [.number n, .suffix s])) ∧
        (endsWithValue front = true → n.negative = false ∧
          Token.scan t = .ok (ts ++ [.additive .minus, .number n, .suffix s])) ∧
        Token.scan (front ++ template.text) = .ok (ts ++ [.blank, .suffix s]) := by
  obtain ⟨front, back, rfl, rfl, hfills⟩ := Filled.exists_of_before? hk.withoutFinalBreak h
  refine ⟨front, back, rfl, rfl, hfills, fun b hb => ?_, ?_⟩
  · rw [(Deletes.filled (hb ▸ h)).text_delete, hb, List.take_left, if_neg]
    simp [template.text_ne_nil]
  · rintro rest rfl
    obtain ⟨s, run, hs, rfl, hne, hrun⟩ := hfills.of_minus
    obtain ⟨ts, n, hts, rfl, hsign, hsubtracts⟩ := Token.scan_minus_number hne hrun hk
    -- with an operand in front of it, the minus would not be recognised
    have hoperand : front.getLast?.any Filled.endsOperand = false := by
      rw [Filled.before?_minus hs hne hrun] at h
      by_contra hany
      rw [Bool.not_eq_false] at hany
      rw [hany, if_pos rfl] at h
      simp at h
    refine ⟨ts, n, s, rfl, hs, fun c hc => ?_, hsign, hsubtracts, ?_⟩
    · rw [Option.mem_def.1 hc, Option.any_some] at hoperand
      exact hoperand
    · rw [Template.text_of_suffix? hs]
      exact Token.scan_blank_suffix hts s

/-- Behind an operator the minus is a sign and goes with its number. -/
theorem emptied_minus_sign :
    let t := "2×-3²".toList
    Keyed t ∧ Filled.before? t = some (2, .square) ∧ ∃ (ts : List Token) (n : Numeral),
      n.negative = true ∧ n.body = ['3'] ∧
        Token.scan t = .ok (ts ++ [.number n, .suffix .square]) := by
  intro t
  have hk : Keyed t := by decide +kernel
  have h : Filled.before? t = some (2, .square) := by decide
  obtain ⟨front, back, ht, hlength, -, -, hminus⟩ := emptied_minus hk h
  obtain ⟨rfl, rfl⟩ : front = ['2', '×'] ∧ back = ['-', '3', '²'] :=
    List.append_inj ht.symm hlength.symm
  obtain ⟨ts, n, s, hrest, hs, -, hsign, -⟩ := hminus _ rfl
  obtain rfl := Option.some.inj hs
  obtain ⟨hneg, hscan⟩ := hsign (by decide)
  have hbody : ['3'] ++ Suffix.square.text = n.body ++ Suffix.square.text := hrest
  exact ⟨hk, h, ts, n, hneg, (List.append_cancel_right hbody).symm, hscan⟩

/-- Behind a percent and behind the last result the minus subtracts, and goes all the same. -/
theorem emptied_minus_differs :
    let percent : List Edit := [.insert ['5'], .insert ['%'], .insert ['-'], .insert ['3'],
      .insert Template.square.text, .delete]
    let lastResult : List Edit := [.insert ansName, .insert ['-'], .insert ['3'],
      .insert Template.square.text, .delete]
    (∀ e ∈ percent ++ lastResult, e.IsKeyed) ∧
      (percent.dropLast.foldl edited cleared).text = "5%-3²".toList ∧
      Filled.before? "5%-3²".toList = some (2, .square) ∧
      endsWithValue "5%".toList = true ∧
      (Token.scan "5%-3²".toList).toOption.map (·.map Token.text) =
        some [['5'], ['%'], ['-'], ['3'], ['²']] ∧
      (percent.foldl edited cleared).text = "5%□²".toList ∧
      (lastResult.dropLast.foldl edited cleared).text = "ans-3²".toList ∧
      (lastResult.foldl edited cleared).text = "ans□²".toList := by
  decide +kernel

end Buffer
end PocketCalculator
