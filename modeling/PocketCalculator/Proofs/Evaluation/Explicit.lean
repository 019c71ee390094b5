import PocketCalculator.Proofs.Evaluation.Completeness
import PocketCalculator.Proofs.Token.Explicit

/-! # Expressions with their products written out

An expression with its products written out has the outcome of the expression itself
(`explicitText_fixed`).  It has the same tokens, so what is left are the checks for completeness,
which look at characters: a sign of multiplication adds no parenthesis and no slot, parts no empty
circular function, and stands between an operand and another one, so never beside a slash. -/

namespace PocketCalculator

open Token

variable {s : Token} {ts us : List Token} {t u : Text} {previous : Option Token} {rest : Text}

/-! ### Halves of fractions -/

theorem firstInk_append (hne : u ≠ []) (hb : ∀ c ∈ u, isBlank c = false) (t : Text) :
    firstInk (u ++ t) = u.head? := by
  obtain ⟨c, u, rfl⟩ := List.exists_cons_of_ne_nil hne
  rw [firstInk, List.cons_append, List.find?_cons_of_pos (by simp [hb c List.mem_cons_self])]
  rfl

theorem firstInk_withProducts (h : ∀ s ∈ ts, s.Written) :
    firstInk (join (withProducts ts)) = firstInk (join ts) := by
  cases ts with
  | nil => rfl
  | cons s ts =>
      obtain ⟨hne, hb⟩ := (h s List.mem_cons_self).text_ink
      rw [withProducts_cons, join_cons, join_cons, firstInk_append hne hb, firstInk_append hne hb]

/-- A sign of multiplication in front of a token other than the slash does not matter to the halves
of fractions. -/
theorem emptyHalfBehind_times (hs : s.Written) (hslash : '/' ∉ s.text) (before t : Text) :
    emptyHalfBehind before ('×' :: (s.text ++ t)) = emptyHalfBehind before (s.text ++ t) := by
  obtain ⟨hne, hb⟩ := hs.text_ink
  have hink (before : Text) : firstInk (s.text.reverse ++ before) = s.text.reverse.head? :=
    firstInk_append (mt List.reverse_eq_nil_iff.1 hne) (fun c hc => hb c (List.mem_reverse.1 hc)) _
  rw [emptyHalfBehind, beq_eq_false_iff_ne.2 (by decide), Bool.false_and, Bool.false_or,
    emptyHalfBehind_append hslash, emptyHalfBehind_append hslash]
  exact emptyHalfBehind_congr (by rw [hink, hink]) t

theorem emptyHalfBehind_withProducts (h : ∀ s ∈ ts, s.Written) (before : Text) :
    emptyHalfBehind before (join (withProducts ts)) = emptyHalfBehind before (join ts) := by
  induction ts generalizing before with
  | nil => rfl
  | cons s ts ih =>
      have hs := h s List.mem_cons_self
      have hts : ∀ r ∈ ts, r.Written := fun r hr => h r (List.mem_cons_of_mem s hr)
      rw [withProducts_cons, join_cons, join_cons, join_append]
      rcases productBetween_eq (some s) ts.head? with hb | hb
      · rw [hb]
        -- only the denominator of a slash looks at what stands behind the token
        by_cases hslash : '/' ∈ s.text
        · rw [hs.eq_slash hslash]
          show emptyHalfBehind before ('/' :: join (withProducts ts)) =
            emptyHalfBehind before ('/' :: join ts)
          rw [emptyHalfBehind, emptyHalfBehind, lacksDenominator_eq, firstInk_withProducts hts,
            ← lacksDenominator_eq, ih hts]
        · rw [emptyHalfBehind_append hslash, emptyHalfBehind_append hslash]
          exact ih hts _
      · -- a sign is written between two tokens that are no slashes
        obtain ⟨_, r, ⟨⟩, hr, hends, hstarts⟩ := startsOperand_of_productBetween hb
        have slash_not_mem {q : Token} (hq : q.Written) (hne : q ≠ multiplicative .slash) :
            '/' ∉ q.text := fun hm => hne (hq.eq_slash hm)
        have hs' := slash_not_mem hs fun he => by
          rw [he] at hends
          cases hends
        obtain ⟨ts, rfl⟩ := List.head?_eq_some_iff.1 hr
        have hr' := hts r List.mem_cons_self
        have hslash := slash_not_mem hr' fun he => by
          rw [he] at hstarts
          cases hstarts
        rw [hb, emptyHalfBehind_append hs', emptyHalfBehind_append hs', join_cons r,
          ← emptyHalfBehind_times hr' hslash, ← join_cons]
        show emptyHalfBehind _ ('×' :: join (withProducts (r :: ts))) = _
        rw [emptyHalfBehind, emptyHalfBehind, ih hts]
        rfl

/-! ### Counts -/

theorem count_withProducts {c : Char} (hc : c ≠ '×') (ts : List Token) :
    (join (withProducts ts)).count c = (join ts).count c := by
  induction ts with
  | nil => rfl
  | cons s ts ih =>
      rw [withProducts_cons, join_cons, join_cons, join_append, List.count_append,
        List.count_append, List.count_append, ih]
      have hnone : (join (productBetween (some s) ts.head?)).count c = 0 := by
        rcases productBetween_eq (some s) ts.head? with hb | hb
        · rw [hb]
          rfl
        · rw [hb, List.count_eq_zero]
          exact fun hm => hc (List.mem_singleton.1 hm)
      rw [hnone, Nat.zero_add]

/-! ### Empty circular functions -/

theorem emptyCall_iff {f : CircularFunction} (h : Scanned none t ts [])
    (hblank : ∀ c ∈ t, isBlank c = false) :
    f.text ++ ['(', ')'] <:+: t ↔ [circular f, opening, closing] <:+: ts := by
  constructor
  · rintro ⟨u, v, rfl⟩
    have htext : u ++ (f.text ++ ['(', ')']) ++ v = u ++ (f.text ++ '(' :: ')' :: v) := by
      simp
    rw [htext] at h
    obtain ⟨front, back, rfl, -, hback⟩ := exists_scanned_of_circular h
    have hclosing : Scanned (some opening) [')'] [closing] v :=
      .of_step (.char (by decide) (Head.read?_cons_eq_none v (by decide)) fun hc =>
        absurd hc (by decide))
    obtain ⟨back, rfl, -⟩ := hclosing.exists_behind hback
    exact ⟨front, back, by simp⟩
  · rintro ⟨front, back, rfl⟩
    rw [← join_of_scanned h hblank]
    refine ⟨join front, join back, ?_⟩
    rw [join_append, join_append]
    rfl

theorem cons_prefix_withProducts (hs : ∀ r, productBetween (some s) r = []) :
    s :: us <+: withProducts ts ↔ ∃ ts', ts = s :: ts' ∧ us <+: withProducts ts' := by
  cases ts with
  | nil => simp [withProducts]
  | cons r ts =>
      rw [withProducts_cons, List.cons_prefix_cons]
      constructor
      · rintro ⟨rfl, h⟩
        rw [hs, List.nil_append] at h
        exact ⟨ts, rfl, h⟩
      · rintro ⟨ts, ⟨⟩, h⟩
        rw [hs, List.nil_append]
        exact ⟨rfl, h⟩

/-- Products are implied neither behind the name of a function nor behind a parenthesis that
opens. -/
theorem emptyCall_prefix_withProducts {f : CircularFunction} :
    [circular f, opening, closing] <+: withProducts ts ↔
      [circular f, opening, closing] <+: ts := by
  have hcircular (r : Option Token) : productBetween (some (circular f)) r = [] := by
    cases r <;> rfl
  have hopening (r : Option Token) : productBetween (some opening) r = [] := by
    cases r <;> rfl
  constructor
  · intro hp
    obtain ⟨_, rfl, h⟩ := (cons_prefix_withProducts hcircular).1 hp
    obtain ⟨ts, rfl, v, h⟩ := (cons_prefix_withProducts hopening).1 h
    have hclosing : ts.head? = some closing := by
      rw [← head?_withProducts, ← h]
      rfl
    obtain ⟨ts, rfl⟩ := List.head?_eq_some_iff.1 hclosing
    exact ⟨ts, rfl⟩
  · rintro ⟨v, rfl⟩
    refine (cons_prefix_withProducts hcircular).2 ⟨_, rfl, ?_⟩
    refine (cons_prefix_withProducts hopening).2 ⟨_, rfl, ?_⟩
    show [closing] <+: withProducts (closing :: v)
    rw [withProducts_cons]
    exact ⟨_, rfl⟩

theorem emptyCall_withProducts {f : CircularFunction} :
    [circular f, opening, closing] <:+: withProducts ts ↔
      [circular f, opening, closing] <:+: ts := by
  induction ts with
  | nil => rfl
  | cons s ts ih =>
      have hbetween : [circular f, opening, closing] <:+:
          productBetween (some s) ts.head? ++ withProducts ts ↔
            [circular f, opening, closing] <:+: withProducts ts := by
        rcases productBetween_eq (some s) ts.head? with hb | hb
        · rw [hb, List.nil_append]
        · rw [hb, List.singleton_append, List.infix_cons_iff, or_iff_right]
          intro hp
          cases (List.cons_prefix_cons.1 hp).1
      rw [List.infix_cons_iff, ← emptyCall_prefix_withProducts, ← ih, ← hbetween, withProducts_cons,
        List.infix_cons_iff]

theorem hasBlank_withProducts (h : Scanned none t ts []) (hblank : ∀ c ∈ t, isBlank c = false)
    (hu : Scanned none u (withProducts ts) []) (hblank' : ∀ c ∈ u, isBlank c = false) :
    hasBlank u = hasBlank t := by
  have hcount : blankSymbol ∈ u ↔ blankSymbol ∈ t := by
    rw [← List.count_pos_iff, ← List.count_pos_iff, ← join_of_scanned hu hblank',
      ← join_of_scanned h hblank, count_withProducts (by decide)]
  rw [Bool.eq_iff_iff, hasBlank_iff, hasBlank_iff, hcount]
  refine or_congr_right (exists_congr fun f => ?_)
  rw [emptyCall_iff hu hblank', emptyCall_iff h hblank, emptyCall_withProducts]

/-! ### Outcomes -/

theorem isBlank_of_mem_withProducts (h : ∀ c ∈ join ts, isBlank c = false) :
    ∀ c ∈ join (withProducts ts), isBlank c = false := by
  intro c hc
  by_cases htimes : c = '×'
  · rw [htimes]
    decide
  · rw [← List.count_pos_iff, count_withProducts htimes, List.count_pos_iff] at hc
    exact h c hc

theorem incompleteness?_explicit (h : scan t = .ok ts) (hblank : ∀ c ∈ t, isBlank c = false) :
    incompleteness? (join (withProducts ts)) = incompleteness? t := by
  have ht := scan_eq_ok_iff.1 h
  have hu := scan_eq_ok_iff.1 (scan_explicit h hblank)
  have hjoin := join_of_scanned ht hblank
  have hblank' : ∀ c ∈ join ts, isBlank c = false := hjoin.symm ▸ hblank
  have hcount {c : Char} (hc : c ≠ '×') : (join (withProducts ts)).count c = t.count c := by
    rw [count_withProducts hc, hjoin]
  refine incompleteness?_congr ?_ (hcount (by decide)) (hcount (by decide)) ?_
  · exact hasBlank_withProducts ht hblank hu (isBlank_of_mem_withProducts hblank')
  · rw [emptyHalfBehind_withProducts ht.written, hjoin]

theorem treeValue_explicit (h : scan t = .ok ts) (hblank : ∀ c ∈ t, isBlank c = false)
    (ans : Option Float) : treeValue ans (join (withProducts ts)) = treeValue ans t := by
  have ofChars_of_scan {v : Text} {vs : List Token} (hv : scan v = .ok vs) :
      ofChars none v = .ok vs :=
    scanned_iff.1 (scan_eq_ok_iff.1 hv)
  rw [treeValue_of_ofChars (ofChars_of_scan h),
    treeValue_of_ofChars (ofChars_of_scan (scan_explicit h hblank)), withProducts_withProducts]

/-- Writing products out a second time changes nothing, whatever the tokens are.  For a text without
blanks that the scanner accepts, the text with its products written out has the tokens of the
expression, is the same text when its products are written out again, and has the same outcome as
the expression, for every last result. -/
theorem explicitText_fixed :
    (∀ ts, withProducts (withProducts ts) = withProducts ts) ∧
    ∀ t, (∀ c ∈ t, isBlank c = false) → (∃ ts, scan t = .ok ts) →
      ∃ u, explicitText t = .ok u ∧ scan u = ofExpression t ∧ explicitText u = .ok u ∧
        ∀ ans, (evaluate ans u).mapError Failure.fault =
          (evaluate ans t).mapError Failure.fault := by
  refine ⟨withProducts_withProducts, ?_⟩
  rintro t hblank ⟨ts, h⟩
  have hu := scan_explicit h hblank
  refine ⟨join (withProducts ts), explicitText_of_scan h, ?_, ?_, fun ans => ?_⟩
  · rw [hu, ofExpression, h]
    rfl
  · rw [explicitText_of_scan hu, withProducts_withProducts]
  · exact evaluate_congr (incompleteness?_explicit h hblank) (treeValue_explicit h hblank ans)

/-- Two products are written out in `2√9ans`, one of them in front of a root. -/
theorem explicitText_fixed_juxtaposed :
    explicitText ['2', '√', '9', 'a', 'n', 's'] = .ok ['2', '×', '√', '9', '×', 'a', 'n', 's'] ∧
    ∀ ans, (evaluate ans ['2', '×', '√', '9', '×', 'a', 'n', 's']).mapError Failure.fault =
      (evaluate ans ['2', '√', '9', 'a', 'n', 's']).mapError Failure.fault := by
  have hblank : ['2', '√', '9', 'a', 'n', 's'].all (fun c => isBlank c = false) = true := by decide
  have hscan : (scan ['2', '√', '9', 'a', 'n', 's']).isOk = true := by decide +kernel
  have htext : (explicitText ['2', '√', '9', 'a', 'n', 's']).toOption =
      some ['2', '×', '√', '9', '×', 'a', 'n', 's'] := by
    decide +kernel
  obtain ⟨u, hu, -, -, hvalue⟩ := explicitText_fixed.2 ['2', '√', '9', 'a', 'n', 's']
    (fun c hc => of_decide_eq_true (List.all_eq_true.1 hblank c hc)) (by
      cases h : scan ['2', '√', '9', 'a', 'n', 's'] with
      | ok ts => exact ⟨ts, rfl⟩
      | error failure =>
          rw [h] at hscan
          cases hscan)
  rw [hu] at htext
  cases htext
  exact ⟨hu, hvalue⟩

end PocketCalculator
