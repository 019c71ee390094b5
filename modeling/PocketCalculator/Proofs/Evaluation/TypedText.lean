import PocketCalculator.Proofs.Buffer.Typing
import PocketCalculator.Proofs.Evaluation.LeadingZero

/-! # The value of a typed text

A text of plain arithmetic and what it becomes when it is typed differ by zeros in front, so they
have the same value up to the sign of zero, and where no sign comes first the same value
(`exists_evaluate_typedText`).  Two texts lose their value or change it when they are typed: a zero
in front of a parenthesis becomes a factor, and a point without a digit behind it needs the zeros in
front of it. -/

namespace PocketCalculator

/-! ### The last result does not matter -/

/-- What is read without the last result is read in the same way with it. -/
theorem Reads.of_none {phrase : Phrase} {ts rest : List Token} {e : Expr}
    (h : Reads none phrase ts e rest) (ans : Option Float) : Reads ans phrase ts e rest := by
  induction h with
  | term _ ih => exact ih.term
  | sum _ _ ihl ihr => exact ihl.sum ihr
  | signed _ ih => exact ih.signed
  | product _ _ ihl ihr => exact ihl.product ihr
  | plus _ ih => exact ih.plus
  | minusLiteral _ ih => exact ih.minusLiteral
  | minus _ hl ih => exact ih.minus hl
  | prefixed _ ih => exact ih.prefixed
  | marker _ ih => exact ih.marker
  | markerMinus _ ih => exact ih.markerMinus
  | suffixes _ hs ih => exact ih.suffixes hs
  | postfixed _ ih => exact ih.postfixed
  | rootMarker _ ih => exact ih.rootMarker
  | rootMarkerMinus _ ih => exact ih.rootMarkerMinus
  | rootMinus _ ih => exact ih.rootMinus
  | root _ ih => exact ih.root
  | unit _ ih => exact ih.unit
  | number hx => exact .number hx
  | ans hx => cases hx
  | blank => exact .blank
  | call _ ih => exact ih.call
  | group _ ih => exact ih.group

theorem treeValue_of_none {t : Text} {v : Float} (h : treeValue none t = .ok v)
    (ans : Option Float) : treeValue ans t = .ok v := by
  obtain ⟨ts, hts, h⟩ := Expr.exists_of_bind_eq_ok h
  obtain ⟨e, he, hv⟩ := Expr.exists_of_bind_eq_ok h
  obtain ⟨s, hs, rfl⟩ := Expr.ofTokens_eq_ok_iff_reads.1 he
  rw [treeValue_of_ofChars hts, Expr.ofTokens_eq_ok_iff_reads.2 ⟨s, hs.of_none ans, rfl⟩]
  exact hv

/-! ### Completeness -/

theorem emptyHalfBehind_eq_false {t : Text} (h : '/' ∉ t) (before : Text) :
    emptyHalfBehind before t = false := by
  induction t generalizing before with
  | nil => rfl
  | cons c t ih =>
      rw [List.mem_cons, not_or] at h
      have hc : (c == '/') = false := beq_eq_false_iff_ne.2 (Ne.symm h.1)
      rw [emptyHalfBehind, hc, ih h.2]
      rfl

theorem incompleteness?_eq_none_iff {t : Text} (ht : t ⊆ arithmeticChars) :
    incompleteness? t = none ↔ t.count '(' = t.count ')' := by
  have key : ∀ p ∈ SlotKind.emptyCircular false ++ SlotKind.emptyCircular true,
      p.any (· ∉ arithmeticChars) = true := by decide
  have hb : blankSymbol ∉ t := fun h => absurd (ht h) (by decide)
  have hslash : '/' ∉ t := fun h => absurd (ht h) (by decide)
  rw [incompleteness?, hasBlank_eq_false hb fun p hp => not_subset_of_arithmetic (key p hp) ht,
    emptyHalfBehind_eq_false hslash]
  simp

theorem evaluate_of_treeValue {ans : Option Float} {t : Text} {v : Float}
    (hi : incompleteness? t = none) (hv : treeValue ans t = .ok v) : evaluate ans t = .ok v := by
  rw [evaluate_eq, hi, hv]
  rfl

/-! ### Characters -/

theorem Head.read?_arithmetic {t : Text} (h : t ⊆ arithmeticChars) : read? t = none := by
  have key : ∀ g ∈ all, g.text.any (· ∉ arithmeticChars) = true := by decide
  exact read?_eq_none fun head hp => not_subset_of_arithmetic (forall_head key head) h hp.subset

theorem Suffix.eq_percent {s : Suffix} (h : ∀ c ∈ s.text, c ∈ arithmeticChars) : s = .percent := by
  cases s with
  | percent => rfl
  | square => exact absurd (h '²' List.mem_cons_self) (by decide)
  | cube => exact absurd (h '³' List.mem_cons_self) (by decide)
  | reciprocal => exact absurd (h '⁻' List.mem_cons_self) (by decide)
  | factorial => exact absurd (h '!' List.mem_cons_self) (by decide)

theorem isNumeralChar_of_arithmetic {c : Char} (hc : c ∈ arithmeticChars) :
    isNumeralChar c = isPlainNumeralChar c := by
  have key : arithmeticChars.all (fun c => isNumeralChar c = isPlainNumeralChar c) = true := by
    decide
  exact forall_arithmetic key hc

theorem first_of_arithmetic {c : Char} (hc : c ∈ arithmeticChars) :
    isPlainNumeralChar c = true ∨ (∃ op : Additive, c = op.symbol) ∨ c = '(' ∨ c ∈ neverFirst := by
  have key : arithmeticChars.all (fun c => isPlainNumeralChar c = true ∨
      (c = Additive.plus.symbol ∨ c = Additive.minus.symbol) ∨ c = '(' ∨ c ∈ neverFirst) =
      true := by
    decide
  rcases forall_arithmetic key hc with h | (h | h) | h | h
  · exact .inl h
  · exact .inr (.inl ⟨.plus, h⟩)
  · exact .inr (.inl ⟨.minus, h⟩)
  · exact .inr (.inr (.inl h))
  · exact .inr (.inr (.inr h))

/-! ### Typed texts -/

theorem typedText_subset {e : Text} (he : e ⊆ arithmeticChars) : typedText e ⊆ arithmeticChars := by
  have hr : e.dropWhile (· == '0') ⊆ arithmeticChars :=
    fun c hc => he ((List.dropWhile_suffix _).subset hc)
  rw [typedText]
  split
  · exact hr
  · exact List.cons_subset.2 ⟨by decide, hr⟩

theorem count_typedText {c : Char} (hc : c ≠ '0') (e : Text) :
    (typedText e).count c = e.count c := by
  have hdrop : (e.dropWhile (· == '0')).count c = e.count c := by
    induction e with
    | nil => rfl
    | cons d e ih =>
        by_cases hd : d = '0'
        · subst hd
          rw [List.dropWhile_cons_of_pos (by decide), ih, List.count_cons_of_ne hc.symm]
        · rw [List.dropWhile_cons_of_neg (by simpa using hd)]
  rw [typedText]
  split
  · exact hdrop
  · rw [List.count_cons_of_ne hc.symm, hdrop]

/-- Whether a text begins with a point that has no digit behind it, zeros in front left aside. -/
def hasBarePoint (e : Text) : Bool :=
  match e.dropWhile (· == '0') with
  | '.' :: r => !r.head?.any isAsciiDigit
  | _ => false

/-- Whether a text begins with a sign. -/
def beginsWithSign (e : Text) : Bool :=
  e.head?.any fun c => c == '+' || c == '-'

theorem exists_replicate_append (e : Text) :
    ∃ k, e = List.replicate k '0' ++ e.dropWhile (· == '0') := by
  refine ⟨(e.takeWhile (· == '0')).length, ?_⟩
  have hz : e.takeWhile (· == '0') = List.replicate (e.takeWhile (· == '0')).length '0' := by
    rw [List.eq_replicate_iff]
    exact ⟨rfl, fun c hc => beq_iff_eq.1 (List.mem_takeWhile_imp (p := (· == '0')) hc)⟩
  rw [← hz]
  exact List.takeWhile_append_dropWhile.symm

/-- The run in front of a text has a digit, unless the text begins with a bare point. -/
theorem exists_digit_of_run {d : Char} {r : Text} (hd : isPlainNumeralChar d = true)
    (hp : ∀ r', d :: r = '.' :: r' → r'.head?.any isAsciiDigit = true) :
    ∃ c ∈ (d :: r).takeWhile isPlainNumeralChar, isAsciiDigit c = true := by
  rw [List.takeWhile_cons_of_pos hd]
  have hcases := hd
  rw [isPlainNumeralChar, Bool.or_eq_true, beq_iff_eq] at hcases
  rcases hcases with h | rfl
  · exact ⟨d, List.mem_cons_self, h⟩
  · have hr := hp r rfl
    cases r with
    | nil => cases hr
    | cons c r =>
        have hc : isAsciiDigit c = true := hr
        rw [List.takeWhile_cons_of_pos (isPlainNumeralChar_of_digit hc)]
        exact ⟨c, List.mem_cons_of_mem _ List.mem_cons_self, hc⟩

/-- A number in front of a text is typed without its zeros, one of which stays when there is nothing
else. -/
theorem exists_number_of_typedText {c : Char} {t : Text} (hc : isPlainNumeralChar c = true)
    (hp : hasBarePoint (c :: t) = false) :
    ∃ k body tail, c :: t = List.replicate k '0' ++ (body ++ tail) ∧
      typedText (c :: t) = body ++ tail ∧ (∀ d ∈ body, isPlainNumeralChar d = true) ∧
      (∃ d ∈ body, isAsciiDigit d = true) ∧ ∀ d ∈ tail.head?, isPlainNumeralChar d = false := by
  obtain ⟨k, hk⟩ := exists_replicate_append (c :: t)
  unfold hasBarePoint at hp
  unfold typedText
  generalize (c :: t).dropWhile (· == '0') = r at hk hp
  dsimp only
  cases hr : r.head?.any isPlainNumeralChar with
  | true =>
      cases r with
      | nil => cases hr
      | cons d r =>
          refine ⟨k, (d :: r).takeWhile isPlainNumeralChar, (d :: r).dropWhile isPlainNumeralChar,
            ?_, ?_, fun c hc => List.mem_takeWhile_imp hc, ?_, Text.head?_dropWhile _ _⟩
          · rw [List.takeWhile_append_dropWhile]
            exact hk
          · rw [if_pos rfl, List.takeWhile_append_dropWhile]
          · refine exists_digit_of_run hr fun r' h => ?_
            rw [h] at hp
            simpa using hp
  | false =>
      cases k with
      | zero =>
          rw [List.replicate_zero, List.nil_append] at hk
          rw [← hk, List.head?_cons, Option.any_some, hc] at hr
          cases hr
      | succ k =>
          refine ⟨k, ['0'], r, ?_, ?_, ?_, ⟨'0', List.mem_cons_self, by decide⟩, ?_⟩
          · rw [hk, List.replicate_succ', List.append_assoc]
          · rw [if_neg Bool.false_ne_true]
            rfl
          · intro d hd
            rw [List.mem_singleton.1 hd]
            decide
          · intro d hd
            rw [Option.mem_def.1 hd] at hr
            exact hr

/-! ### Values -/

/-- A number comes first. -/
theorem evaluate_typedText_of_number {c : Char} {t : Text} {v : Float} {ans : Option Float}
    (he : c :: t ⊆ arithmeticChars) (hc : isPlainNumeralChar c = true)
    (hp : hasBarePoint (c :: t) = false) (h : treeValue ans (c :: t) = .ok v) :
    treeValue ans (typedText (c :: t)) = .ok v := by
  obtain ⟨k, body, tail, hk, htyped, hbody, ⟨d, hd, hdigit⟩, htail⟩ :=
    exists_number_of_typedText hc hp
  have hnum : ∀ c ∈ body, isNumeralChar c = true := fun c hc => isNumeralChar_of_plain (hbody c hc)
  have hne : body ≠ [] := List.ne_nil_of_mem hd
  let m : Numeral := ⟨false, body, hne, List.all_eq_true.2 hnum⟩
  have hne' : List.replicate k '0' ++ body ≠ [] := List.append_ne_nil_of_right_ne_nil _ hne
  have hall : (List.replicate k '0' ++ body).all isNumeralChar = true := by
    rw [List.all_append, List.all_eq_true.2 hnum, Bool.and_true, List.all_eq_true]
    intro c hc
    rw [(List.mem_replicate.1 hc).2]
    decide
  let n : Numeral := ⟨false, List.replicate k '0' ++ body, hne', hall⟩
  have htail' : ∀ c ∈ tail.head?, isNumeralChar c = false := by
    intro c hc
    have hmem : c ∈ tail := List.mem_of_mem_head? hc
    have hmem' : c ∈ arithmeticChars := by
      refine he ?_
      rw [hk]
      exact List.mem_append_right _ (List.mem_append_right _ hmem)
    rw [isNumeralChar_of_arithmetic hmem']
    exact htail c hc
  have hd' : ∃ c ∈ m.body, isDecimalDigit c = true :=
    ⟨d, hd, isDecimalDigit_of_isAsciiDigit hdigit⟩
  rw [hk, ← List.append_assoc] at h
  rw [htyped]
  exact treeValue_zeros (n := n) (m := m) rfl rfl rfl hd' htail' h

/-- A text of plain arithmetic has the same value when it is typed, up to the sign of zero. -/
theorem exists_evaluate_typedText {e : Text} {v : Float} (ans : Option Float)
    (he : e ⊆ arithmeticChars) (hopen : e.head? ≠ some '(') (hp : hasBarePoint e = false)
    (h : evaluate none e = .ok v) :
    ∃ w, evaluate ans (typedText e) = .ok w ∧ EqUpToZero w v ∧
      (beginsWithSign e = false → w = v) := by
  obtain ⟨hi, hv⟩ := treeValue_of_evaluate h
  have hv := treeValue_of_none hv ans
  have hi' : incompleteness? (typedText e) = none := by
    rw [incompleteness?_eq_none_iff he] at hi
    rw [incompleteness?_eq_none_iff (typedText_subset he), count_typedText (by decide),
      count_typedText (by decide), hi]
  cases e with
  | nil =>
      rw [treeValue_of_ofChars (Token.ofChars_nil none)] at hv
      obtain ⟨first, us, more, ho, -, -⟩ := Expr.exists_chain_of_value hv
      rw [Token.withProducts, Expr.operand] at ho
      cases ho
  | cons c t =>
      have ht : t ⊆ arithmeticChars := (List.cons_subset.1 he).2
      rcases first_of_arithmetic (List.cons_subset.1 he).1 with hc | ⟨op, rfl⟩ | rfl | hc
      · exact ⟨v, evaluate_of_treeValue hi' (evaluate_typedText_of_number he hc hp hv), .refl v,
          fun _ => rfl⟩
      · have hs : ∀ s : Suffix, (∀ c ∈ s.text, c ∈ t) → s = .percent :=
          fun s h => Suffix.eq_percent fun c hc => ht (h c hc)
        obtain ⟨w, hw, heq⟩ := treeValue_zero_cons hs hv
        have htyped : typedText (op.symbol :: t) = '0' :: op.symbol :: t := by
          cases op <;> rfl
        rw [htyped] at hi' ⊢
        refine ⟨w, evaluate_of_treeValue hi' hw, heq, fun hsign => ?_⟩
        cases op <;> cases hsign
      · exact absurd rfl hopen
      · exact absurd hv (treeValue_ne_ok hc (Head.read?_arithmetic he))

end PocketCalculator
